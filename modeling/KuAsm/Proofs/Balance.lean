import KuAsm.Proofs.ProgramChart
import Mathlib.Data.List.Flatten

/-!
# Open frames along control flow

The text of a unit is a graph: control goes from a line to the next one, and from a jump to its
label.  Every position of this graph has a number of open blocks, whichever way control takes to
come there.  A block adds one, `leave` takes one away, and functions begin and end with none.

The numbers are read off the chart of the unit: the scopes around a line, up to the function whose
text it is in, are those of the open blocks.  The text of a function is entered at one line, where
control jumps over it, and left at one line, where the function returns; in between the function is
always among the scopes around.

## Main definitions

* `Code.Edge`: the graph.
* `Code.IsBalanced`: the numbers agree on both ends of every edge.
* `Line.Agrees`: the scopes around a place of a charted text.

## Main statements

* `Charts.agrees`: the scopes of a chart are told place by place.
* `Charts.within_iff`: where the text of a function begins and ends.
* `frames_balanced`: the text of every unit is balanced.
-/

namespace KuAsm

open Asm Reg

variable {l : Label} {f j : Nat} {o' : Option ScopeId} {t : ScopeTree}

/-! ### The graph -/

/-- Whether a line is a place in the text: comments and the definitions of numbers are none. -/
def Line.isPlace : Line → Bool
  | .comment _ | .constant _ _ => false
  | _ => true

/-- The places of a piece of code. -/
def Code.places (code : Code) : Code := code.filter Line.isPlace

/-- The places of the text section of a unit. -/
def Code.textSection (code : Code) : Code := Code.places code.inText

/-- Whether control goes on with the next line. -/
def Line.falls : Line → Bool
  | .instr (.jmp _) | .instr (.bare .ret) => false
  | _ => true

namespace Code

variable (code : Code)

/-- The line at this position lets the frame pointer point to a new frame, in the prologue of a
block. -/
def OpensAt (i : Nat) : Prop :=
  0 < i ∧ code[i - 1]? = some (push ebp) ∧ code[i]? = some (mov ebp esp)

/-- The line at this position closes the frame of a block. -/
def ClosesAt (i : Nat) : Prop := code[i]? = some (bare .leave)

/-- Control goes from one position to another, in the text of one function. -/
inductive Edge : Nat → Nat → Prop
  | fall {i : Nat} {x : Line} : code[i]? = some x → x.falls = true → ¬code.EndsAt i → Edge i (i + 1)
  | jump {i j : Nat} {l : Label} : code[i]? = some (jmp l) → code[j]? = some (.label l) → Edge i j
  | branch {i j : Nat} {c : Cond} {l : Label} : code[i]? = some (jcc c l) →
    code[j]? = some (.label l) → Edge i j

/-- The text of a function stands behind the position `first`, where control jumps over it, and in
front of the position `last`, where that jump leads to. -/
def IsFunction (first last : Nat) : Prop :=
  ∃ skip entry symbol, [jmp skip, .label entry] ++ Convention.functionPrologue symbol <+:
    code.drop first ∧ code[last]? = some (.label skip)

/-- The label at this position is the end of a function: its result is loaded, and it returns. -/
def IsReturn (i : Nat) : Prop :=
  ∃ l loads, (∀ x ∈ loads, ∃ (r : Reg) (m : Mem), x = mov r m) ∧
    .label l :: (loads ++ Convention.functionEpilogue) <+: code.drop i

/-- Every position has a number of open blocks, on which all ways to it agree.  No way leads into
the text of a function or out of it. -/
structure IsBalanced (entry : String) (frames : Nat → Nat) : Prop where
  plain : ∀ i j, code.Edge i j → ¬code.OpensAt i → ¬code.ClosesAt i → frames j = frames i
  opens : ∀ i j, code.Edge i j → code.OpensAt i → frames j = frames i + 1
  closes : ∀ i j, code.Edge i j → code.ClosesAt i → frames i = frames j + 1
  closable : ∀ i, code.ClosesAt i → 0 < frames i
  block : ∀ i l, Convention.blockPrologue l <+: code.drop i →
    frames (i + (Convention.blockPrologue l).length) = frames i + 1
  function : ∀ i l, Convention.functionPrologue l <+: code.drop i →
    frames (i + (Convention.functionPrologue l).length) = 0
  program : ∀ i, code[i]? = some (.verbatim (entry ++ ":")) → frames (i + 1) = 0
  returns : ∀ i, code.IsReturn i → frames i = 0
  exit : ∀ i, code.EndsAt i → frames i = 0
  apart : ∀ first last, code.IsFunction first last → ∀ i j, code.Edge i j →
    (first < i ∧ i < last ↔ first < j ∧ j < last)

end Code

/-! ### Places -/

namespace Code

variable {code : Code} {f g i : Nat} {x : Line}

/-- How many places stand in front of a line. -/
def rank (code : Code) (f : Nat) : Nat := (places (code.take f)).length

/-- The line of a place, or the end of the code. -/
def nth : Code → Nat → Nat
  | [], _ => 0
  | x :: code, i =>
    if x.isPlace then
      match i with
      | 0 => 0
      | i + 1 => nth code i + 1
    else nth code i + 1

theorem rank_succ (hx : code[f]? = some x) :
    code.rank (f + 1) = code.rank f + if x.isPlace then 1 else 0 := by
  unfold rank places
  rw [List.take_add_one, hx, List.filter_append, List.length_append]
  cases hplace : x.isPlace <;> simp [hplace]

theorem rank_le (code : Code) (h : f ≤ g) : code.rank f ≤ code.rank g :=
  ((List.take_sublist_take_left h).filter _).length_le

theorem rank_add_le (code : Code) (f n : Nat) : code.rank (f + n) ≤ code.rank f + n := by
  unfold rank places
  rw [List.take_add, List.filter_append, List.length_append]
  exact Nat.add_le_add_left (Nat.le_trans (List.length_filter_le _ _) (List.length_take_le _ _)) _

theorem rank_length (code : Code) : code.rank code.length = (places code).length := by
  unfold rank
  rw [List.take_length]

/-- Places are counted from nought. -/
theorem getElem?_rank (hx : code[f]? = some x) (hplace : x.isPlace = true) :
    (places code)[code.rank f]? = some x := by
  have hsplit : places code = places (code.take f) ++ places (code.drop f) := by
    unfold places
    rw [← List.filter_append, List.take_append_drop]
  have hlt := (List.getElem?_eq_some_iff.1 hx).1
  have hdrop : code.drop f = x :: code.drop (f + 1) := by
    rw [List.drop_eq_getElem_cons hlt, (List.getElem?_eq_some_iff.1 hx).2]
  rw [hsplit]
  unfold rank
  rw [List.getElem?_append_right (Nat.le_refl _), Nat.sub_self, hdrop]
  unfold places
  rw [List.filter_cons_of_pos hplace]
  rfl

theorem nth_le (code : Code) (i : Nat) : code.nth i ≤ code.length := by
  induction code generalizing i with
  | nil => exact Nat.le_refl _
  | cons x code ih =>
    unfold nth
    split
    · cases i with
      | zero => exact Nat.zero_le _
      | succ i => exact Nat.succ_le_succ (ih i)
    · exact Nat.succ_le_succ (ih i)

theorem rank_nth (h : i ≤ (places code).length) : code.rank (code.nth i) = i := by
  induction code generalizing i with
  | nil => exact (Nat.le_zero.1 h).symm
  | cons x code ih =>
    unfold places at h
    unfold nth
    split
    · rename_i hplace
      rw [List.filter_cons_of_pos hplace] at h
      cases i with
      | zero => rfl
      | succ i =>
        show (places (x :: List.take (nth code i) code)).length = i + 1
        unfold places
        rw [List.filter_cons_of_pos hplace]
        exact congrArg (· + 1) (ih (Nat.le_of_succ_le_succ h))
    · rename_i hplace
      rw [List.filter_cons_of_neg hplace] at h
      show (places (x :: List.take (nth code i) code)).length = i
      unfold places
      rw [List.filter_cons_of_neg hplace]
      exact ih h

theorem getElem?_nth (code : Code) (i : Nat) : code[code.nth i]? = (places code)[i]? := by
  induction code generalizing i with
  | nil => rfl
  | cons x code ih =>
    unfold nth places
    split
    · rename_i hplace
      rw [List.filter_cons_of_pos hplace]
      cases i with
      | zero => rfl
      | succ i => exact ih i
    · rename_i hplace
      rw [List.filter_cons_of_neg hplace]
      exact ih i

theorem isPlace_of_places (hx : (places code)[i]? = some x) : x.isPlace = true :=
  (List.mem_filter.1 (List.mem_of_getElem? hx)).2

/-- The line in front of a place, if it is a place itself. -/
theorem getElem?_rank_pred (hpos : 0 < f) (hx : code[f - 1]? = some x) (hplace : x.isPlace = true) :
    0 < code.rank f ∧ (places code)[code.rank f - 1]? = some x := by
  have hrank := rank_succ hx
  rw [Nat.sub_add_cancel hpos, if_pos hplace] at hrank
  rw [hrank, Nat.add_sub_cancel]
  exact ⟨Nat.succ_pos _, getElem?_rank hx hplace⟩

theorem eq_of_defines (hnodup : (Code.defines code).Nodup) {y : Line} (hi : code[f]? = some x)
    (hj : code[g]? = some y) (hx : l ∈ x.defines) (hy : l ∈ y.defines) : f = g := by
  have hpairwise := (List.nodup_flatMap.1 hnodup).2
  have hne : ∀ {f g : Nat} {x y : Line}, f < g → code[f]? = some x → code[g]? = some y →
      l ∈ x.defines → l ∉ y.defines := by
    intro f g x y hfg hi hj hx hy
    obtain ⟨hi', rfl⟩ := List.getElem?_eq_some_iff.1 hi
    obtain ⟨hj', rfl⟩ := List.getElem?_eq_some_iff.1 hj
    exact List.pairwise_iff_getElem.1 hpairwise f g hi' hj' hfg hx hy
  rcases Nat.lt_trichotomy f g with hfg | hfg | hfg
  · exact absurd hy (hne hfg hi hj hx)
  · exact hfg
  · exact absurd hx (hne hfg hj hi hy)

theorem eq_of_label (hnodup : (Code.defines code).Nodup) (hi : code[f]? = some (.label l))
    (hj : code[g]? = some (.label l)) : f = g :=
  eq_of_defines hnodup hi hj (List.mem_singleton_self l) (List.mem_singleton_self l)

theorem prefix_cons {rest : Code} (h : x :: rest <+: code.drop i) :
    code[i]? = some x ∧ rest <+: code.drop (i + 1) := by
  obtain ⟨back, hback⟩ := h
  constructor
  · rw [← Nat.add_zero i, ← List.getElem?_drop, ← hback]
    rfl
  · rw [← List.drop_drop, ← hback]
    exact ⟨back, rfl⟩

theorem Edge.lt (h : code.Edge i j) : i < code.length := by
  cases h with
  | fall hi => exact (List.getElem?_eq_some_iff.1 hi).1
  | jump hi => exact (List.getElem?_eq_some_iff.1 hi).1
  | branch hi => exact (List.getElem?_eq_some_iff.1 hi).1

theorem Edge.le (h : code.Edge i j) : j ≤ code.length := by
  cases h with
  | fall hi => exact (List.getElem?_eq_some_iff.1 hi).1
  | jump _ hj => exact Nat.le_of_lt (List.getElem?_eq_some_iff.1 hj).1
  | branch _ hj => exact Nat.le_of_lt (List.getElem?_eq_some_iff.1 hj).1

end Code

namespace Line

variable {x : Line}

theorem isPlace_of_isBusy (h : x.isBusy = true) : x.isPlace = true := by
  cases x with
  | instr => rfl
  | label | constant | bytes | comment | verbatim => cases h

theorem kind_of_not_isPlace (h : x.isPlace = false) : x.kind = .plain := by
  cases x with
  | comment | constant => rfl
  | instr | label | bytes | verbatim => cases h

theorem isPlace_of_kind (h : x.kind ≠ .plain) : x.isPlace = true := by
  by_contra hplace
  exact h (kind_of_not_isPlace (Bool.eq_false_iff.2 hplace))

theorem falls_of_jmp (h : x.kind = .jmp l) : x.falls = false := by
  unfold kind at h
  split at h <;> first | rfl | cases h

theorem falls_of_ret (h : x.kind = .ret) : x.falls = false := by
  unfold kind at h
  split at h <;> first | rfl | cases h

theorem eq_leave (h : x.kind = .leave) : x = bare .leave := by
  unfold kind at h
  split at h <;> first | rfl | cases h

theorem eq_frame (h : x.kind = .frame) : x = mov ebp esp := by
  unfold kind at h
  split at h <;> first | rfl | cases h

end Line

/-! ### Scopes around places -/

/-- How many blocks are open at a place. -/
def ScopeTree.depth (t : ScopeTree) (o : Option ScopeId) : Nat :=
  ((t.enclosing o).takeWhile fun i => (t.scope i).function.isNone).length

theorem ScopeTree.Ordered.depth_of_block (ht : t.Ordered) {i : ScopeId} (hi : i < t.size)
    (h : (t.scope i).function = none) : t.depth (some i) = t.depth (t.scope i).parent + 1 := by
  unfold depth
  rw [ht.enclosing_eq hi, List.takeWhile_cons_of_pos (by rw [h]; rfl)]
  rfl

theorem ScopeTree.Ordered.depth_of_function (ht : t.Ordered) {i : ScopeId} (hi : i < t.size)
    (h : (t.scope i).function.isSome = true) : t.depth (some i) = 0 := by
  unfold depth
  rw [ht.enclosing_eq hi, List.takeWhile_cons_of_neg
    (by rw [Option.isNone_eq_false_iff.2 h]; nofun)]
  rfl

section

variable (t : ScopeTree) (code : Code) (os : Nat → Option ScopeId) (i : Nat)

/-- The scopes around a place fit to it. -/
def Line.Agrees (x : Line) : Prop :=
  match x.kind with
  | .plain | .label _ => os (i + 1) = os i
  | .jmp l => ∃ j : Nat, code[j]? = some (.label l) ∧ os j = os i
  | .jcc l => os (i + 1) = os i ∧ ∃ j : Nat, code[j]? = some (.label l) ∧ os j = os i
  | .leave =>
    ∃ k : Nat, k < t.size ∧ os i = some k ∧ (t.scope k).function = none ∧
      os (i + 1) = (t.scope k).parent
  | .ret => ∃ k : Nat, k < t.size ∧ os i = some k ∧ (t.scope k).function.isSome = true
  | .frame => ∃ k : Nat, k < t.size ∧ os (i + 1) = some k ∧
    (code.OpensAt i ∧ (t.scope k).function = none ∧ (t.scope k).parent = os i ∨
      ¬code.OpensAt i ∧ (t.scope k).function.isSome = true ∧ os i = some k)
  | .kernel => os (i + 1) = os i ∧ ¬code.EndsAt i ∨ code.EndsAt i ∧ os i = none
  | .verbatim => os i = none ∧ os (i + 1) = none

end

namespace Charts

variable {Γ : Ground} {code : Code} {ms : Nat → Spot}
  (hc : Charts Γ (fun _ _ => False) code ms .outside .outside)
include hc

theorem scope_of_rank {n : Nat} (hle : f + n ≤ code.length) (h : code.rank (f + n) = code.rank f) :
    (ms (f + n)).scope = (ms f).scope := by
  induction n with
  | zero => rfl
  | succ n ih =>
    obtain ⟨x, hx⟩ : ∃ x, code[f + n]? = some x := ⟨_, List.getElem?_eq_getElem hle⟩
    have hrank := Code.rank_succ hx
    rw [← Nat.add_assoc] at h
    have hmono := code.rank_le (Nat.le_add_right f n)
    cases hplace : x.isPlace with
    | true =>
      rw [hplace, if_pos rfl] at hrank
      omega
    | false =>
      rw [hplace, if_neg nofun] at hrank
      obtain ⟨hcharted, -⟩ := hc.lines _ x hx
      unfold Line.Charted at hcharted
      rw [Line.kind_of_not_isPlace hplace] at hcharted
      exact hcharted.1.trans (ih (Nat.le_of_succ_le hle) (by omega))

/-- The scope at a line is the one at the next place. -/
theorem scope_nth_rank (hf : f ≤ code.length) :
    (ms (code.nth (code.rank f))).scope = (ms f).scope := by
  have hle : code.rank f ≤ (Code.places code).length := code.rank_length ▸ code.rank_le hf
  have hrank := Code.rank_nth hle
  have hend := code.nth_le (code.rank f)
  generalize code.nth (code.rank f) = g at hrank hend
  rcases Nat.le_total f g with h | h
  · obtain ⟨n, rfl⟩ := Nat.exists_eq_add_of_le h
    exact hc.scope_of_rank hend hrank
  · obtain ⟨n, rfl⟩ := Nat.exists_eq_add_of_le h
    exact (hc.scope_of_rank hf hrank.symm).symm

theorem agrees {i : Nat} {x : Line} (hx : (Code.places code)[i]? = some x) :
    x.Agrees Γ.tree (Code.places code) (fun i => (ms (code.nth i)).scope) i := by
  have hlt := (List.getElem?_eq_some_iff.1 hx).1
  have hplace := Code.isPlace_of_places hx
  have hline : code[code.nth i]? = some x := (code.getElem?_nth i).trans hx
  have hflt := (List.getElem?_eq_some_iff.1 hline).1
  generalize hf : code.nth i = f at hline hflt
  have hrank : code.rank f = i := hf ▸ Code.rank_nth (Nat.le_of_lt hlt)
  -- between two places the scope stays, so the next place has the scope behind this line
  have hnext : (ms (code.nth (i + 1))).scope = (ms (f + 1)).scope := by
    have hsucc := Code.rank_succ hline
    rw [if_pos hplace, hrank] at hsucc
    rw [← hsucc]
    exact hc.scope_nth_rank hflt
  have hleads : ∀ {l : Label}, code.LeadsTo (fun _ _ => False) ms f l →
      ∃ j : Nat, (Code.places code)[j]? = some (.label l) ∧
      (ms (code.nth j)).scope = (ms f).scope := by
    rintro l (hl | ⟨j, hj, hms⟩)
    · exact hl.elim
    · have hjlt := (List.getElem?_eq_some_iff.1 hj).1
      exact ⟨code.rank j, Code.getElem?_rank hj rfl, (hc.scope_nth_rank (Nat.le_of_lt hjlt)).trans
        (congrArg _ hms)⟩
  have hback : ∀ {y : Line}, 0 < f → code[f - 1]? = some y → y.isPlace = true →
      0 < i ∧ (Code.places code)[i - 1]? = some y := fun hpos hy hplace =>
    hrank ▸ Code.getElem?_rank_pred hpos hy hplace
  obtain ⟨hcharted, -⟩ := hc.lines f x hline
  unfold Line.Charted at hcharted
  unfold Line.Agrees
  dsimp only
  rw [hnext, hf]
  cases hkind : x.kind with
  | plain =>
    rw [hkind] at hcharted
    exact hcharted.1
  | label l =>
    rw [hkind] at hcharted
    exact congrArg _ hcharted
  | jmp l =>
    rw [hkind] at hcharted
    exact hleads hcharted.1
  | jcc l =>
    rw [hkind] at hcharted
    exact ⟨congrArg _ hcharted.1, hleads hcharted.2⟩
  | leave =>
    rw [hkind] at hcharted
    obtain ⟨k, hk, hscope, hfunction, hms⟩ := hcharted
    exact ⟨k, hk, hscope, hfunction, congrArg _ hms⟩
  | ret =>
    rw [hkind] at hcharted
    obtain ⟨k, hreturns⟩ := hcharted
    exact ⟨k, hreturns.lt, hreturns.here, hreturns.function⟩
  | frame =>
    rw [hkind] at hcharted
    obtain ⟨hpos, k, hk | hk⟩ := hcharted
    · obtain ⟨hpos', hpush⟩ := hback hpos hk.pushed rfl
      exact ⟨k, hk.lt, congrArg _ hk.next,
        .inl ⟨⟨hpos', hpush, Line.eq_frame hkind ▸ hx⟩, hk.function, hk.parent⟩⟩
    · obtain ⟨y, hy, hne, hbusy⟩ := hk.pushed
      obtain ⟨-, hpush⟩ := hback hpos hy (Line.isPlace_of_isBusy hbusy)
      refine ⟨k, hk.lt, congrArg _ hk.next,
        .inr ⟨fun hopens => ?_, hk.function, congrArg _ hk.here⟩⟩
      exact hne (Option.some.inj (hpush.symm.trans hopens.2.1))
  | kernel =>
    rw [hkind] at hcharted
    rcases hcharted with ⟨hms, hpos, y, hy, hbusy⟩ | ⟨⟨hle, h₂, h₁, h₀⟩, hms, -⟩
    · obtain ⟨-, hbefore⟩ := hback hpos hy (Line.isPlace_of_isBusy hbusy)
      refine .inl ⟨congrArg _ hms, fun hends => ?_⟩
      cases Option.some.inj (hbefore.symm.trans hends.2.2.1)
      cases hbusy
    · obtain ⟨hpos, hfirst⟩ := hback (by omega) h₁ rfl
      have hrank' : code.rank (f - 1) = i - 1 := by
        have hsucc := Code.rank_succ h₁
        rw [Nat.sub_add_cancel (by omega), hrank] at hsucc
        rw [hsucc]
        rfl
      obtain ⟨hpos', hsecond⟩ :=
        Code.getElem?_rank_pred (f := f - 1) (by omega) (by rwa [Nat.sub_sub]) rfl
      rw [hrank'] at hpos' hsecond
      have hkernel : x = kernel := Option.some.inj (hline.symm.trans h₀)
      exact .inr ⟨⟨by omega, hsecond, hfirst, hkernel ▸ hx⟩, congrArg _ hms⟩
  | verbatim =>
    rw [hkind] at hcharted
    exact ⟨congrArg _ hcharted.1, congrArg _ hcharted.2⟩

end Charts

/-! ### Edges -/

/-- What an edge does to the scopes around. -/
inductive ScopeTree.Moves (t : ScopeTree) (opens closes : Prop) :
    Option ScopeId → Option ScopeId → Prop
  | stay {o} : ¬opens → ¬closes → Moves t opens closes o o
  | enter {k} : opens → k < t.size → (t.scope k).function = none →
    Moves t opens closes (t.scope k).parent (some k)
  | leave {k} : closes → k < t.size → (t.scope k).function = none →
    Moves t opens closes (some k) (t.scope k).parent

theorem ScopeTree.Moves.home (ht : t.Ordered) {opens closes : Prop} {o : Option ScopeId}
    (h : t.Moves opens closes o o') : t.home o' = t.home o := by
  cases h with
  | stay => rfl
  | enter _ hk hfunction => exact ht.home_of_block hk hfunction
  | leave _ hk hfunction => exact (ht.home_of_block hk hfunction).symm

theorem ScopeTree.Moves.depth (ht : t.Ordered) {opens closes : Prop} {o : Option ScopeId}
    (h : t.Moves opens closes o o') :
      opens ∧ t.depth o' = t.depth o + 1 ∨ closes ∧ t.depth o = t.depth o' + 1 ∨
      ¬opens ∧ ¬closes ∧ t.depth o' = t.depth o := by
  cases h with
  | stay hopens hcloses => exact .inr (.inr ⟨hopens, hcloses, rfl⟩)
  | enter hopens hk hfunction => exact .inl ⟨hopens, ht.depth_of_block hk hfunction⟩
  | leave hcloses hk hfunction => exact .inr (.inl ⟨hcloses, ht.depth_of_block hk hfunction⟩)

namespace Charts

variable {Γ : Ground} {code : Code} {ms : Nat → Spot}
  (hc : Charts Γ (fun _ _ => False) code ms .outside .outside)
include hc

theorem moves (hnodup : (Code.defines code).Nodup) {i : Nat} (h : (Code.places code).Edge i j) :
    Γ.tree.Moves ((Code.places code).OpensAt i) ((Code.places code).ClosesAt i)
      (ms (code.nth i)).scope (ms (code.nth j)).scope := by
  have hnodup' : (Code.defines (Code.places code)).Nodup :=
    hnodup.sublist (List.filter_sublist.flatMap _)
  have hstill : ∀ {x : Line}, (Code.places code)[i]? = some x → x.kind ≠ .frame → x.kind ≠ .leave →
      ∀ {o o' : Option ScopeId}, o' = o →
        Γ.tree.Moves ((Code.places code).OpensAt i) ((Code.places code).ClosesAt i) o o' := by
    intro x hx hframe hleave o o' heq
    rw [heq]
    refine .stay (fun hopen => hframe ?_) fun hclose => hleave ?_
    · rw [Option.some.inj (hx.symm.trans hopen.2.2)]
      rfl
    · rw [Option.some.inj (hx.symm.trans hclose)]
      rfl
  have hlabel : ∀ {l : Label}, (Code.places code)[j]? = some (.label l) →
      (∃ j : Nat, (Code.places code)[j]? = some (.label l) ∧
        (ms (code.nth j)).scope = (ms (code.nth i)).scope) →
        (ms (code.nth j)).scope = (ms (code.nth i)).scope := by
    rintro l hj ⟨j', hj', hscope⟩
    rwa [Code.eq_of_label hnodup' hj hj']
  -- an edge along a jump ends at the one line that has the label
  cases h with
  | jump hi hj => exact hstill hi nofun nofun (hlabel hj (hc.agrees hi))
  | branch hi hj => exact hstill hi nofun nofun (hlabel hj (hc.agrees hi).2)
  | fall hx hfalls hend =>
    rename_i x
    have hagrees := hc.agrees hx
    unfold Line.Agrees at hagrees
    dsimp only at hagrees
    cases hkind : x.kind with
    | plain | label l =>
      rw [hkind] at hagrees
      exact hstill hx (by rw [hkind]; nofun) (by rw [hkind]; nofun) hagrees
    | jcc l =>
      rw [hkind] at hagrees
      exact hstill hx (by rw [hkind]; nofun) (by rw [hkind]; nofun) hagrees.1
    | verbatim =>
      rw [hkind] at hagrees
      exact hstill hx (by rw [hkind]; nofun) (by rw [hkind]; nofun) (hagrees.2.trans hagrees.1.symm)
    | kernel =>
      rw [hkind] at hagrees
      rcases hagrees with ⟨hnext, -⟩ | ⟨hend', -⟩
      · exact hstill hx (by rw [hkind]; nofun) (by rw [hkind]; nofun) hnext
      · exact absurd hend' hend
    | jmp l => exact absurd hfalls (by rw [Line.falls_of_jmp hkind]; nofun)
    | ret => exact absurd hfalls (by rw [Line.falls_of_ret hkind]; nofun)
    | leave =>
      rw [hkind] at hagrees
      obtain ⟨k, hk, hscope, hfunction, hnext⟩ := hagrees
      rw [hscope, hnext]
      exact .leave (hx.trans (congrArg some (Line.eq_leave hkind))) hk hfunction
    | frame =>
      rw [hkind] at hagrees
      obtain ⟨k, hk, hnext, ⟨hopens, hfunction, hparent⟩ | ⟨hopens, -, hhere⟩⟩ := hagrees
      · rw [hnext, ← hparent]
        exact .enter hopens hk hfunction
      · rw [hnext, hhere]
        refine .stay hopens fun hclose => ?_
        rw [Option.some.inj (hx.symm.trans hclose)] at hkind
        cases hkind

theorem run {i : Nat} {lines : Code} (hpre : lines <+: (Code.places code).drop i)
    (hstill : ∀ x ∈ lines, x.kind = .plain ∨ ∃ l, x.kind = .label l) :
    (ms (code.nth (i + lines.length))).scope = (ms (code.nth i)).scope := by
  induction lines generalizing i with
  | nil => rfl
  | cons x lines ih =>
    obtain ⟨hx, hrest⟩ := Code.prefix_cons hpre
    have hnext : (ms (code.nth (i + 1))).scope = (ms (code.nth i)).scope := by
      have hagrees := hc.agrees hx
      unfold Line.Agrees at hagrees
      rcases hstill x List.mem_cons_self with hkind | ⟨l, hkind⟩ <;>
      · rw [hkind] at hagrees
        exact hagrees
    rw [List.length_cons, Nat.add_comm lines.length, ← Nat.add_assoc,
      ih hrest fun y hy => hstill y (List.mem_cons_of_mem _ hy), hnext]

/-- The prologue of a function lies in its scope. -/
theorem scope_of_functionPrologue {i : Nat}
    (hpre : Convention.functionPrologue l <+: (Code.places code).drop i) :
    ∃ k : Nat, k < Γ.tree.size ∧ (Γ.tree.scope k).function.isSome = true ∧
      (ms (code.nth (i + (Convention.functionPrologue l).length))).scope = some k := by
  obtain ⟨-, hrest⟩ := Code.prefix_cons hpre
  obtain ⟨hlink, hrest⟩ := Code.prefix_cons hrest
  obtain ⟨hframe, hclear⟩ := Code.prefix_cons hrest
  have hclosed : ¬(Code.places code).OpensAt (i + 1 + 1) := fun hopens => by
    cases hlink.symm.trans hopens.2.1
  obtain ⟨k, hk, hnext, ⟨hopens, -⟩ | ⟨-, hfunction, -⟩⟩ := hc.agrees hframe
  · exact absurd hopens hclosed
  · refine ⟨k, hk, hfunction, ?_⟩
    rw [← hnext]
    exact hc.run hclear (by simp [Line.kind, Convention.clearFrame, sub, mov, Asm.xor, bare])

theorem scope_of_isReturn {i : Nat} (h : (Code.places code).IsReturn i) :
    ∃ k : Nat, k < Γ.tree.size ∧ (Γ.tree.scope k).function.isSome = true ∧
    (ms (code.nth i)).scope = some k := by
  obtain ⟨l, loads, hloads, hpre⟩ := h
  have hsplit : .label l :: (loads ++ Convention.functionEpilogue) =
      (.label l :: (loads ++ [lea esp (Mem.dword ebp 4), pop ebp])) ++ [bare .ret] := by
    simp [Convention.functionEpilogue]
  rw [hsplit] at hpre
  have hrun := hc.run ((List.prefix_append ..).trans hpre) fun x hx => by
    rcases List.mem_cons.1 hx with rfl | hx
    · exact .inr ⟨l, rfl⟩
    · rcases List.mem_append.1 hx with hx | hx
      · obtain ⟨r, m, rfl⟩ := hloads x hx
        refine .inl ?_
        cases r <;> rfl
      · simp only [List.mem_cons, List.not_mem_nil, or_false] at hx
        rcases hx with rfl | rfl <;> exact .inl rfl
  obtain ⟨back, hback⟩ := hpre
  have hret : (Code.places code)[i + (Line.label l ::
      (loads ++ [lea esp (Mem.dword ebp 4), pop ebp])).length]? = some (bare .ret) := by
    rw [← List.getElem?_drop, ← hback, List.append_assoc,
      List.getElem?_append_right (Nat.le_refl _), Nat.sub_self]
    rfl
  obtain ⟨k, hk, hscope, hfunction⟩ := hc.agrees hret
  exact ⟨k, hk, hfunction, hrun.symm.trans hscope⟩

end Charts

/-! ### Texts of functions -/

/-- Somewhere a property gets lost. -/
theorem exists_lost {P : Nat → Prop} {m n : Nat} (hmn : m ≤ n) (hm : P m) (hn : ¬P n) :
    ∃ i, m ≤ i ∧ i < n ∧ P i ∧ ¬P (i + 1) := by
  induction hmn with
  | refl => exact absurd hm hn
  | @step n hmn ih =>
    by_cases hP : P n
    · exact ⟨n, hmn, Nat.lt_succ_self n, hP, hn⟩
    · obtain ⟨i, hi, hlt, h⟩ := ih hP
      exact ⟨i, hi, Nat.lt_succ_of_lt hlt, h⟩

/-- The place is in the text of a function, or of a function inside it. -/
def ScopeTree.IsInside (t : ScopeTree) (k : ScopeId) (o : Option ScopeId) : Prop :=
  ∃ h, t.home o = some h ∧ k ∈ t.path h

namespace ScopeTree

variable {t : ScopeTree} {k j : ScopeId} {o o' : Option ScopeId}

theorem isInside_congr (h : t.home o' = t.home o) : t.IsInside k o' ↔ t.IsInside k o := by
  unfold IsInside
  rw [h]

theorem Ordered.isInside_self (ht : t.Ordered) (hk : k < t.size)
    (hf : (t.scope k).function.isSome = true) : t.IsInside k (some k) :=
  ⟨k, ht.home_of_function hk hf, ht.mem_path_self hk⟩

theorem Ordered.not_isInside_parent (ht : t.Ordered) (hk : k < t.size) :
    ¬t.IsInside k (t.scope k).parent := by
  rintro ⟨h, hhome, hmem⟩
  cases hp : (t.scope k).parent with
  | none =>
    rw [hp] at hhome
    cases hhome
  | some p =>
    rw [hp] at hhome
    have hlt := ht.parent_lt k p hk hp
    have hle := (ht.mem_path_of_home (Nat.lt_trans hlt hk) hhome).2
    have hle' := ht.le_of_mem_path h (Nat.lt_of_le_of_lt hle (Nat.lt_trans hlt hk)) k hmem
    exact Nat.lt_irrefl _ (Nat.lt_of_le_of_lt (Nat.le_trans hle' hle) hlt)

/-- The text of a function inside another one. -/
theorem Ordered.isInside_function (ht : t.Ordered) (hk : (t.scope k).function.isSome = true)
    (hj : j < t.size) (hf : (t.scope j).function.isSome = true) :
    t.IsInside k (some j) ↔ k = j ∨ t.IsInside k (t.scope j).parent := by
  have hmem : t.IsInside k (some j) ↔ k ∈ t.path j := by
    unfold IsInside
    rw [ht.home_of_function hj hf]
    exact ⟨fun ⟨_, hh, hk⟩ => Option.some.inj hh ▸ hk, fun hk => ⟨j, rfl, hk⟩⟩
  rw [hmem, show t.path j = j :: t.enclosing (t.scope j).parent from ht.enclosing_eq hj,
    List.mem_cons]
  refine or_congr Iff.rfl ?_
  cases hp : (t.scope j).parent with
  | none => exact ⟨nofun, fun ⟨_, hhome, _⟩ => nomatch hhome⟩
  | some p =>
    have hp' : p < t.size := Nat.lt_trans (ht.parent_lt j p hj hp) hj
    constructor
    · intro hmem
      have hfound : (t.home (some p)).isSome = true := List.find?_isSome.2 ⟨k, hmem, hk⟩
      obtain ⟨h, hh⟩ := Option.isSome_iff_exists.1 hfound
      obtain ⟨-, front, back, hpath, hnone⟩ := List.find?_eq_some_iff_append.1 hh
      refine ⟨h, hh, ?_⟩
      have hdrop : (t.path p).drop front.length = t.path h := by
        refine ht.drop_path _ hp' ?_
        rw [show t.path p = front ++ h :: back from hpath,
          List.getElem?_append_right (Nat.le_refl _), Nat.sub_self]
        rfl
      rw [show t.path p = front ++ h :: back from hpath, List.drop_left] at hdrop
      rw [← hdrop]
      refine (List.mem_append.1 (hpath ▸ hmem)).resolve_left fun hfront => ?_
      have hnot := hnone k hfront
      rw [hk] at hnot
      cases hnot
    · rintro ⟨h, hhome, hmem⟩
      exact ht.mem_path_trans hp' (ht.mem_path_of_home hp' hhome).1 hmem

end ScopeTree

namespace Charts

variable {Γ : Ground} {code : Code} {ms : Nat → Spot}
  (hc : Charts Γ (fun _ _ => False) code ms .outside .outside) (ht : Γ.tree.Ordered)
include hc ht

/-- Only a jump over its text leads into the text of a function, and only its end leads out of
it. -/
theorem isInside_succ {x : Line} (hx : code[f]? = some x) {k : ScopeId}
    (hk : (Γ.tree.scope k).function.isSome = true) :
    (Γ.tree.IsInside k (ms (f + 1)).scope ↔ Γ.tree.IsInside k (ms f).scope) ∨
      (∃ l, x.kind = .jmp l) ∧ ¬Γ.tree.IsInside k (ms f).scope ∨ x.kind = .ret ∧
      Code.Returns Γ code ms f k := by
  have hsame : Γ.tree.home (ms (f + 1)).scope = Γ.tree.home (ms f).scope →
      (Γ.tree.IsInside k (ms (f + 1)).scope ↔ Γ.tree.IsInside k (ms f).scope) :=
      ScopeTree.isInside_congr
  obtain ⟨hcharted, -⟩ := hc.lines f x hx
  unfold Line.Charted at hcharted
  cases hkind : x.kind with
  | plain =>
    rw [hkind] at hcharted
    exact .inl (hsame (by rw [hcharted.1]))
  | label l =>
    rw [hkind] at hcharted
    exact .inl (hsame (by rw [show ms (f + 1) = ms f from hcharted]))
  | jcc l =>
    rw [hkind] at hcharted
    exact .inl (hsame (by rw [hcharted.1]))
  | kernel =>
    rw [hkind] at hcharted
    rcases hcharted with ⟨hms, -⟩ | ⟨-, hms, hms'⟩
    · exact .inl (hsame (by rw [hms]))
    · exact .inl (hsame (by rw [hms, hms']))
  | verbatim =>
    rw [hkind] at hcharted
    exact .inl (hsame (by rw [hcharted.1, hcharted.2]))
  | leave =>
    rw [hkind] at hcharted
    obtain ⟨j, hj, hscope, hfunction, hms⟩ := hcharted
    refine .inl (hsame ?_)
    rw [hms, hscope]
    exact (ht.home_of_block hj hfunction).symm
  | frame =>
    rw [hkind] at hcharted
    obtain ⟨-, j, hj | hj⟩ := hcharted
    · refine .inl (hsame ?_)
      rw [hj.next, ← hj.parent]
      exact ht.home_of_block hj.lt hj.function
    · exact .inl (hsame (by rw [hj.next, hj.here]))
  | jmp l =>
    rw [hkind] at hcharted
    -- if the text of a function begins here, it lies inside `k` where the jump does, or is that of
    -- `k`
    rcases hcharted.2 with hhome | ⟨j, hj, hms, hfunction, hhome⟩
    · exact .inl (hsame hhome)
    · have hinto := ht.isInside_function hk hj hfunction
      have hparent := ScopeTree.isInside_congr (k := k) hhome
      by_cases hinside : Γ.tree.IsInside k (ms f).scope
      · refine .inl ⟨fun _ => hinside, fun _ => ?_⟩
        rw [hms]
        exact hinto.2 (.inr (hparent.2 hinside))
      · exact .inr (.inl ⟨⟨l, rfl⟩, hinside⟩)
  | ret =>
    rw [hkind] at hcharted
    obtain ⟨j, hj⟩ := hcharted
    by_cases hkj : k = j
    · exact .inr (.inr ⟨rfl, hkj ▸ hj⟩)
    · have hout := ht.isInside_function hk hj.lt hj.function
      have hparent := ScopeTree.isInside_congr (k := k) hj.next
      rw [hj.here]
      exact .inl (hparent.trans ⟨fun h => hout.2 (.inr h), fun h => (hout.1 h).resolve_left hkj⟩)

/-- The text of a function stands between a line that leads into it and the line where the function
returns. -/
theorem isInside_iff (hnodup : (Code.defines code).Nodup) {k : ScopeId}
    (hk : (Γ.tree.scope k).function.isSome = true)
    {e : Nat} (he : e < code.length) (hbefore : ¬Γ.tree.IsInside k (ms e).scope)
    (hbehind : Γ.tree.IsInside k (ms (e + 1)).scope) :
    ∃ r x, code[r]? = some x ∧ x.kind = .ret ∧ Code.Returns Γ code ms r k ∧
      ∀ f, f ≤ code.length → (Γ.tree.IsInside k (ms f).scope ↔ e < f ∧ f ≤ r) := by
  have hend : ¬Γ.tree.IsInside k (ms code.length).scope := by
    rw [hc.last]
    rintro ⟨_, hhome, -⟩
    cases hhome
  -- where the function returns, the size of its frame follows
  have hreturns : ∀ {f : Nat} (_ : f < code.length), Γ.tree.IsInside k (ms f).scope →
      ¬Γ.tree.IsInside k (ms (f + 1)).scope → code[f].kind = .ret ∧ Code.Returns Γ code ms f k := by
    intro f hf hin hout
    rcases hc.isInside_succ ht (List.getElem?_eq_getElem hf) hk with h | ⟨-, h⟩ | h
    · exact absurd (h.2 hin) hout
    · exact absurd hin h
    · exact h
  have honce : ∀ {f g : Nat}, Code.Returns Γ code ms f k → Code.Returns Γ code ms g k → f = g := by
    intro f g hf hg
    obtain ⟨n, hn⟩ := hf.size
    obtain ⟨n', hn'⟩ := hg.size
    exact Nat.succ.inj (Code.eq_of_defines hnodup hn hn' (List.mem_singleton_self _)
      (List.mem_singleton_self _))
  obtain ⟨r, her, hr, hin, hout⟩ :=
    exists_lost (P := fun f => Γ.tree.IsInside k (ms f).scope) he hbehind hend
  obtain ⟨hret, hr'⟩ := hreturns hr hin hout
  refine ⟨r, _, List.getElem?_eq_getElem hr, hret, hr', fun f hf =>
    ⟨fun hinside => ?_, fun ⟨hef, hfr⟩ => ?_⟩⟩
  · obtain ⟨g, hfg, hg, hin', hout'⟩ :=
      exists_lost (P := fun f => Γ.tree.IsInside k (ms f).scope) hf hinside hend
    obtain rfl := honce hr' (hreturns hg hin' hout').2
    refine ⟨Nat.lt_of_not_le fun hfe => ?_, hfg⟩
    obtain ⟨g, -, hge, hin', hout'⟩ :=
      exists_lost (P := fun f => Γ.tree.IsInside k (ms f).scope) hfe hinside hbefore
    obtain rfl := honce hr' (hreturns (Nat.lt_trans hge he) hin' hout').2
    omega
  · by_contra hnot
    obtain ⟨g, -, hgf, hin', hout'⟩ :=
      exists_lost (P := fun f => Γ.tree.IsInside k (ms f).scope) hef hbehind hnot
    obtain rfl := honce hr' (hreturns (Nat.lt_of_lt_of_le hgf hf) hin' hout').2
    omega

/-- The text of a function stands between the jump over it and the label that this jump leads to. -/
theorem exists_inside (hnodup : (Code.defines code).Nodup) {first last : Nat}
    (h : (Code.places code).IsFunction first last) : ∃ k, ∀ i, i ≤ (Code.places code).length →
      (Γ.tree.IsInside k (ms (code.nth i)).scope ↔ first < i ∧ i < last) := by
  obtain ⟨skip, entry, symbol, hpre, hlast⟩ := h
  obtain ⟨hjump, hrest⟩ := Code.prefix_cons hpre
  obtain ⟨hentry, hrest⟩ := Code.prefix_cons hrest
  obtain ⟨hpush, hrest⟩ := Code.prefix_cons hrest
  obtain ⟨hlink, hrest⟩ := Code.prefix_cons hrest
  obtain ⟨hframe, -⟩ := Code.prefix_cons hrest
  have hline : ∀ {i : Nat} {x : Line}, (Code.places code)[i]? = some x →
      code[code.nth i]? = some x ∧ code.rank (code.nth i) = i := fun {i x} hx =>
    ⟨(code.getElem?_nth i).trans hx,
      Code.rank_nth (Nat.le_of_lt (List.getElem?_eq_some_iff.1 hx).1)⟩
  -- the frame of the function is opened
  obtain ⟨hg, hrank⟩ := hline hframe
  generalize code.nth (first + 1 + 1 + 1 + 1) = g at hg hrank
  have hglt := (List.getElem?_eq_some_iff.1 hg).1
  obtain ⟨k, hbegins⟩ : ∃ k, Code.Begins Γ code ms g k := by
    obtain ⟨hpos, k, hk | hk⟩ := (hc.lines g _ hg).1
    · have hbefore := (Code.getElem?_rank_pred hpos hk.pushed rfl).2
      rw [hrank, Nat.add_sub_cancel] at hbefore
      cases hlink.symm.trans hbefore
    · exact ⟨k, hk⟩
  have hin : Γ.tree.IsInside k (ms g).scope := by
    rw [hbegins.here]
    exact ht.isInside_self hbegins.lt hbegins.function
  have hout : ¬Γ.tree.IsInside k (ms (g - 4)).scope := fun h =>
    ht.not_isInside_parent hbegins.lt ((ScopeTree.isInside_congr hbegins.first.2).1 h)
  -- the line that leads into its text is the jump over it
  obtain ⟨e, hle, heg, hbefore, hbehind⟩ :=
    exists_lost (P := fun f => ¬Γ.tree.IsInside k (ms f).scope) (Nat.sub_le g 4) hout fun h => h hin
  rw [not_not] at hbehind
  have helt := Nat.lt_trans heg hglt
  have hcode := List.getElem?_eq_getElem helt
  obtain ⟨l, hjmp⟩ : ∃ l, code[e].kind = .jmp l := by
    rcases hc.isInside_succ ht hcode hbegins.function with h | ⟨h, -⟩ | ⟨-, h⟩
    · exact absurd (h.1 hbehind) hbefore
    · exact h
    · refine absurd ?_ hbefore
      rw [h.here]
      exact ht.isInside_self h.lt h.function
  have hplace : code[e].isPlace = true := Line.isPlace_of_kind (by rw [hjmp]; nofun)
  have hfirst : code.rank e = first := by
    have hsucc := Code.rank_succ hcode
    rw [if_pos hplace] at hsucc
    have hupper : code.rank (e + 1) ≤ code.rank g := code.rank_le heg
    have hlower := code.rank_add_le e (g - e)
    rw [Nat.add_sub_cancel' (Nat.le_of_lt heg)] at hlower
    have hat := Code.getElem?_rank hcode hplace
    have hne : ∀ {i : Nat} {y : Line}, (Code.places code)[i]? = some y → y.kind ≠ .jmp l →
        code.rank e ≠ i := by
      rintro i y hy hne rfl
      rw [Option.some.inj (hat.symm.trans hy)] at hjmp
      exact hne hjmp
    have h₁ := hne hentry nofun
    have h₂ := hne hpush nofun
    have h₃ := hne hlink nofun
    have h₄ := hbegins.first.1
    omega
  obtain ⟨r, y, hy, hret, hreturns, hiff⟩ :=
    hc.isInside_iff ht hnodup hbegins.function helt hbefore hbehind
  -- the label behind its end is the one that the jump leads to
  have hlast' : last = code.rank r + 1 := by
    obtain ⟨j, skip', hj, hskip', hms, hhome⟩ := hreturns.across
    obtain ⟨n, hn⟩ := hreturns.size
    have hjlt := (List.getElem?_eq_some_iff.1 hj).1
    have hin' :=
      (hiff (j + 1) hjlt).1 (by rw [hms]; exact ht.isInside_self hreturns.lt hreturns.function)
    have hout' : ¬(e < j ∧ j ≤ r) := fun h =>
      ht.not_isInside_parent hreturns.lt
        ((ScopeTree.isInside_congr hhome).1 ((hiff j (Nat.le_of_lt hjlt)).2 h))
    obtain rfl : j = e := by omega
    have hsame := Code.getElem?_rank hj rfl
    rw [hfirst] at hsame
    cases hjump.symm.trans hsame
    have hnodup' : (Code.defines (Code.places code)).Nodup :=
      hnodup.sublist (List.filter_sublist.flatMap _)
    rw [Code.eq_of_label hnodup' hlast (Code.getElem?_rank hskip' rfl), Code.rank_succ hn,
      Code.rank_succ hy, if_pos (Line.isPlace_of_kind (by rw [hret]; nofun))]
    rfl
  refine ⟨k, fun i hi => (hiff _ (code.nth_le i)).trans ?_⟩
  have hi' := Code.rank_nth hi
  have hsuccE := Code.rank_succ hcode
  have hsuccR := Code.rank_succ hy
  rw [if_pos hplace] at hsuccE
  rw [if_pos (Line.isPlace_of_kind (by rw [hret]; nofun))] at hsuccR
  constructor
  · rintro ⟨hlower, hupper⟩
    have hlower' : code.rank (e + 1) ≤ code.rank (code.nth i) := code.rank_le hlower
    have hupper' := code.rank_le hupper
    omega
  · rintro ⟨hlower, hupper⟩
    refine ⟨Nat.lt_of_not_le fun h => ?_, Nat.le_of_not_lt fun h => ?_⟩
    · have hle := code.rank_le h
      omega
    · have hle : code.rank (r + 1) ≤ code.rank (code.nth i) := code.rank_le h
      omega

theorem isBalanced (hnodup : (Code.defines code).Nodup) (entry : String) :
    (Code.places code).IsBalanced entry fun i => Γ.tree.depth (ms (code.nth i)).scope where
  plain i j he hopen hclose := by
    rcases (hc.moves hnodup he).depth ht with ⟨h, -⟩ | ⟨h, -⟩ | ⟨-, -, h⟩
    · exact absurd h hopen
    · exact absurd h hclose
    · exact h
  opens i j he hopen := by
    rcases (hc.moves hnodup he).depth ht with ⟨-, h⟩ | ⟨h, -⟩ | ⟨h, -⟩
    · exact h
    · cases hopen.2.2.symm.trans h
    · exact absurd hopen h
  closes i j he hclose := by
    rcases (hc.moves hnodup he).depth ht with ⟨h, -⟩ | ⟨-, h⟩ | ⟨-, h, -⟩
    · cases h.2.2.symm.trans hclose
    · exact h
    · exact absurd hclose h
  closable i hclose := by
    obtain ⟨k, hk, hscope, hfunction, -⟩ := hc.agrees hclose
    dsimp only at hscope ⊢
    rw [hscope, ht.depth_of_block hk hfunction]
    exact Nat.succ_pos _
  block i l hpre := by
    obtain ⟨hpush, hrest⟩ := Code.prefix_cons hpre
    obtain ⟨hframe, hclear⟩ := Code.prefix_cons hrest
    have hbefore := hc.agrees hpush
    obtain ⟨k, hk, hnext, ⟨-, hfunction, hparent⟩ | ⟨hopens, -⟩⟩ := hc.agrees hframe
    · have hend :=
        hc.run hclear (by simp [Line.kind, Convention.clearFrame, sub, mov, Asm.xor, bare])
      have hall := ht.depth_of_block hk hfunction
      rw [hparent, ← hnext] at hall
      exact (congrArg Γ.tree.depth hend).trans (hall.trans (congrArg (Γ.tree.depth · + 1) hbefore))
    · exact absurd ⟨Nat.succ_pos i, hpush, hframe⟩ hopens
  function i l hpre := by
    obtain ⟨k, hk, hfunction, hscope⟩ := hc.scope_of_functionPrologue hpre
    rw [hscope, ht.depth_of_function hk hfunction]
  program i hi := congrArg Γ.tree.depth (hc.agrees hi).2
  returns i h := by
    obtain ⟨k, hk, hfunction, hscope⟩ := hc.scope_of_isReturn h
    rw [hscope, ht.depth_of_function hk hfunction]
  exit i h := by
    rcases hc.agrees h.2.2.2 with ⟨-, hne⟩ | ⟨-, hnone⟩
    · exact absurd h hne
    · exact congrArg Γ.tree.depth hnone
  apart first last h i j he := by
    obtain ⟨k, hiff⟩ := hc.exists_inside ht hnodup h
    rw [← hiff i (Nat.le_of_lt he.lt), ← hiff j he.le]
    exact (ScopeTree.isInside_congr ((hc.moves hnodup he).home ht)).symm

end Charts

/-! ### Units -/

/-- In every unit each position of the text has a number of open blocks.  The number is nought
behind the prologue of a function, where it returns, where the program begins and where the process
ends.  A block adds one and `leave` takes one away, which is never done at nought.  The two ends of
every other edge agree, and no edge leads into the text of a function or out of it. -/
theorem frames_balanced {session : Session} {options : Options} {program : Program} {a : Assembly}
    (h : (compileIn session options program).1 = .ok a) :
    ∃ frames, (Code.textSection a.code).IsBalanced options.entry frames := by
  obtain ⟨t, hrun, rfl, -⟩ := compileIn_eq_ok h
  obtain ⟨ms, hsurvey⟩ := lowerUnit_surveyed hrun options.entry
  have hnodup := lowerUnit_textLines_nodup hrun options.entry
  refine ⟨fun i => t.tree.depth (ms (Code.nth (t.listing.textLines options.entry) i)).scope, ?_⟩
  show (Code.places (Code.inText (t.listing.assemble options.entry))).IsBalanced options.entry _
  rw [Listing.inText_assemble (lowerUnit_isCode hrun)]
  exact hsurvey.charts.isBalanced hsurvey.laid.formed.ordered hnodup options.entry

/-- A function in whose loop another function is defined, and which is left out of two blocks. -/
def entangled : Program :=
  ⟨[.unplaced (.function "f" [⟨"n", .integer⟩] .integer
      [.unplaced (.whileLoop (.unplaced (.bool true))
        [.unplaced (.function "g" [] .string [.unplaced (.ret (some (.unplaced (.str "a"))))]),
         .unplaced (.conditional
          (.unplaced (.binary .lt (.unplaced (.var "n")) (.unplaced (.number 1))))
          [.unplaced (.ret (some (.unplaced (.number 0))))]
          (.block [.unplaced .breakLoop, .unplaced (.call "g" [])])),
         .unplaced .continueLoop]),
       .unplaced (.ret (some (.unplaced (.call "f" [.unplaced (.var "n")]))))])]⟩

theorem frames_balanced_entangled : ∃ a frames,
    (compileIn .empty { comments := false } entangled).1 = .ok a ∧
      (Code.textSection a.code).IsBalanced "_start" frames := by
  have hok : (compileIn .empty { comments := false } entangled).1.isOk = true := by decide +kernel
  obtain ⟨a, ha⟩ := exists_of_isOk hok
  obtain ⟨frames, hframes⟩ := frames_balanced ha
  exact ⟨a, frames, ha, hframes⟩

end KuAsm
