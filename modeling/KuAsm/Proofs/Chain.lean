import KuAsm.Proofs.Balance

/-!
# The chain of frames

Every frame is linked to the frame of the scope around its own.  A block links its frame to the one
that was current before it; a caller hands over the frame that the callee is declared in.  While the
program runs the links from the current frame therefore spell the scopes around the place where
control is, at any depth and under any recursion.

A run is described by the frames on the stack, by the one `ebp` points to and, behind a chase, by
the one `esi` points to.  The chart of the unit says at each line of which scopes these frames are,
and every step of a run keeps to it.

## Main definitions

* `Frame`, `Run`, `Run.Step`: frames at run time, and what lines do to them.
* `Run.Keeps`: the frames of a run are those that a chart tells of.

## Main statements

* `Run.Reaches.keeps`: every run keeps to the chart.
* `links_spell_scopes`: the links spell the scopes around every place that a run comes to.
-/

namespace KuAsm

open Asm Reg

/-! ### Runs -/

/-- A frame on the stack. -/
structure Frame where
  /-- The symbol of its size, by which its scope is known. -/
  symbol : Label
  /-- The frame that it is linked to. -/
  link : Option Nat
  /-- For the frame of a function, where it returns to and which frame is current then. -/
  back : Option (Nat × Option Nat)

/-- What a run is about to do, and the frames that are there.  Frames are numbered from the bottom
of the stack. -/
structure Run where
  /-- The next line. -/
  pos : Nat
  /-- The frames on the stack. -/
  frames : List Frame
  /-- The frame that `ebp` points to. -/
  current : Option Nat
  /-- The frame that `esi` points to, if it does. -/
  side : Option Nat

/-- Whether a line leaves frames alone, and control may go on behind it. -/
def Line.isCalm : Line → Bool
  | .instr (.jmp _) | .instr (.call _) | .instr (.bare .leave) | .instr (.bare .ret)
  | .instr (.mov (.reg .ebp) _) | .instr (.arith _ (.reg .ebp) _) | .instr (.pop .ebp)
  | .instr (.lea .esp _) => false
  | _ => true

namespace Run

/-- The frame that a frame is linked to. -/
def linkOf (r : Run) (n : Nat) : Option Nat := r.frames[n]?.bind Frame.link

/-- The frame so many links away from the current one. -/
def follow (r : Run) : Nat → Option Nat
  | 0 => r.current
  | k + 1 => (r.follow k).bind r.linkOf

/-- The frame that a register points to. -/
def pointed (r : Run) : Reg → Option Nat
  | ebp => r.current
  | esi => r.side
  | _ => none

/-- The frame that `esi` points to behind a line. -/
def chased (r : Run) (x : Line) : Option Nat :=
  if x = mov esi ebp then r.current
  else if x = mov esi (Mem.dword esi 0) then r.side.bind r.linkOf
  else if x.writesEsi then none
  else r.side

/-- One step of a run.  The prologue of a function belongs to the call, and its epilogue is one
step. -/
inductive Step (code : Code) : Run → Run → Prop
  | enter {r l} : Convention.blockPrologue l <+: code.drop r.pos →
    Step code r ⟨r.pos + 7, r.frames ++ [⟨l, r.current, none⟩], some r.frames.length, r.side⟩
  | leave {r n F} : code[r.pos]? = some (bare .leave) → r.current = some n → r.frames[n]? = some F →
    Step code r ⟨r.pos + 1, r.frames.take n, F.link, r.side⟩
  | call {r base entry j l} : 0 < r.pos → code[r.pos - 1]? = some (push (.reg base)) →
    code[r.pos]? = some (Asm.call entry) → code[j]? = some (.label entry) →
    Convention.functionPrologue l <+: code.drop (j + 1) →
    Step code r ⟨j + 9, r.frames ++ [⟨l, r.pointed base, some (r.pos + 1, r.current)⟩],
      some r.frames.length, none⟩
  | ret {r n F pos caller} : Convention.functionEpilogue <+: code.drop r.pos → r.current = some n →
    r.frames[n]? = some F → F.back = some (pos, caller) →
    Step code r ⟨pos, r.frames.take n, caller, none⟩
  /-- The operating system is asked for memory, with an argument in `ebp`, which is put back
  afterwards. -/
  | lend {r} : Primitive.map <+: code.drop r.pos →
    Step code r { r with pos := r.pos + 9, side := none }
  | jump {r x l j} : code[r.pos]? = some x → x = jmp l ∨ (∃ c, x = jcc c l) →
    code[j]? = some (.label l) → Step code r { r with pos := j }
  | fall {r x} : code[r.pos]? = some x → x.isCalm = true → ¬code.EndsAt r.pos →
    Step code r { r with pos := r.pos + 1, side := r.chased x }

/-- A run goes on from where it was put. -/
inductive Reaches (code : Code) (r₀ : Run) : Run → Prop
  | start : Reaches code r₀ r₀
  | step {r r'} : Reaches code r₀ r → Step code r r' → Reaches code r₀ r'

/-- A run of a unit begins at its entry, without any frame. -/
inductive IsStart (code : Code) (entry : String) : Run → Prop
  | mk {i} : code[i]? = some (.verbatim (entry ++ ":")) → IsStart code entry ⟨i + 1, [], none, none⟩

end Run

/-! ### Chains of scopes -/

namespace ScopeTree

variable {t : ScopeTree} {o : Option ScopeId} {i : ScopeId}

/-- The symbols of a scope and of the scopes around it. -/
def symbols (tree : ScopeTree) (i : ScopeId) : List Label :=
  (tree.path i).map fun j => (tree.scope j).frameSize

/-- The symbols of the scopes around a place. -/
def links (t : ScopeTree) (o : Option ScopeId) : List Label :=
  (t.enclosing o).map fun j => (t.scope j).frameSize

theorem Ordered.links_eq (ht : t.Ordered) (hi : i < t.size) :
    t.links (some i) = (t.scope i).frameSize :: t.links (t.scope i).parent := by
  unfold links
  rw [ht.enclosing_eq hi]
  rfl

/-- What lies around a scope further outwards. -/
theorem Ordered.drop_links (ht : t.Ordered) {d k : Nat} (h : (t.enclosing o)[d]? = some k) :
    (t.links o).drop d = t.symbols k ∧ d < (t.links o).length := by
  have hdrop : (t.enclosing o).drop d = t.path k := by
    cases o with
    | none => cases h
    | some i =>
      by_cases hi : i < t.size
      · exact ht.drop_path d hi h
      · have hpath : t.path i = [] ∨ t.path i = [i] := by
          unfold path
          cases t.size with
          | zero => exact .inl rfl
          | succ n =>
            unfold pathWithin
            rw [scope_of_le (Nat.le_of_not_lt hi)]
            exact .inr rfl
        change (t.path i)[d]? = some k at h
        show (t.path i).drop d = t.path k
        rcases hpath with hpath | hpath
        · rw [hpath] at h
          cases h
        · rw [hpath] at h
          cases d with
          | zero =>
            cases h
            rfl
          | succ d => cases h
  unfold links symbols
  rw [← List.map_drop, hdrop, List.length_map]
  exact ⟨rfl, (List.getElem?_eq_some_iff.1 h).1⟩

end ScopeTree

/-! ### Runs keep to charts -/

/-- The links from a frame spell the symbols.  A frame is linked to one below it. -/
def Spells (frames : List Frame) : Option Nat → List Label → Prop
  | none, [] => True
  | some n, g :: chain => ∃ F, frames[n]? = some F ∧ F.symbol = g ∧ (∀ k, F.link = some k → k < n) ∧
    Spells frames F.link chain
  | _, _ => False

namespace Spells

variable {frames : List Frame} {current : Option Nat} {chain : List Label}

theorem lt (h : Spells frames current chain) {n : Nat} (hn : current = some n) :
    n < frames.length := by
  subst hn
  cases chain with
  | nil => exact h.elim
  | cons g chain =>
    obtain ⟨F, hF, -⟩ := h
    exact (List.getElem?_eq_some_iff.1 hF).1

theorem append (h : Spells frames current chain) (more : List Frame) :
    Spells (frames ++ more) current chain := by
  induction chain generalizing current with
  | nil =>
    cases current with
    | none => trivial
    | some n => exact h.elim
  | cons g chain ih =>
    cases current with
    | none => exact h.elim
    | some n =>
      have hlt := h.lt rfl
      obtain ⟨F, hF, hsymbol, hlink, hrest⟩ := h
      exact ⟨F, by rwa [List.getElem?_append_left hlt], hsymbol, hlink, ih hrest⟩

theorem take (h : Spells frames current chain) {n : Nat} (hn : ∀ k, current = some k → k < n) :
    Spells (frames.take n) current chain := by
  induction chain generalizing current with
  | nil =>
    cases current with
    | none => trivial
    | some n => exact h.elim
  | cons g chain ih =>
    cases current with
    | none => exact h.elim
    | some k =>
      have hk := hn k rfl
      obtain ⟨F, hF, hsymbol, hlink, hrest⟩ := h
      refine ⟨F, by rwa [List.getElem?_take_of_lt hk], hsymbol, hlink, ih hrest fun j hj => ?_⟩
      exact Nat.lt_trans (hlink j hj) hk

theorem push (h : Spells frames current chain) (g : Label) (back : Option (Nat × Option Nat)) :
    Spells (frames ++ [⟨g, current, back⟩]) (some frames.length) (g :: chain) := by
  refine ⟨⟨g, current, back⟩, ?_, rfl, fun k hk => h.lt hk, h.append _⟩
  rw [List.getElem?_append_right (Nat.le_refl _), Nat.sub_self]
  rfl

theorem follow {r : Run} (h : Spells r.frames r.current chain) {k : Nat} (hk : k ≤ chain.length) :
    Spells r.frames (r.follow k) (chain.drop k) := by
  induction k with
  | zero => exact h
  | succ k ih =>
    have hrest := ih (by omega)
    rw [List.drop_eq_getElem_cons (by omega)] at hrest
    unfold Run.follow
    cases hn : r.follow k with
    | none =>
      rw [hn] at hrest
      exact hrest.elim
    | some n =>
      rw [hn] at hrest
      obtain ⟨F, hF, -, -, hlink⟩ := hrest
      have hlinkOf : r.linkOf n = F.link := by
        unfold Run.linkOf
        rw [hF, Option.bind_some]
      rw [Option.bind_some, hlinkOf]
      exact hlink

end Spells

theorem Run.follow_moved (r : Run) (pos : Nat) (side : Option Nat) (k : Nat) :
    Run.follow { r with pos, side } k = r.follow k := by
  induction k with
  | zero => rfl
  | succ k ih =>
    unfold Run.follow
    rw [ih]
    rfl

theorem Run.chased_eq {r : Run} {x : Line} {e : Option Nat} {d : Nat}
    (he : ∀ d, e = some d → r.side = r.follow d)
    (hd : x.shift e = some d) : r.chased x = r.follow d := by
  unfold Line.shift at hd
  unfold Run.chased
  split at hd
  · rename_i hx
    cases hd
    rw [if_pos hx]
    rfl
  · rename_i hx
    rw [if_neg hx]
    split at hd
    · rename_i hx'
      obtain ⟨d', hd', rfl⟩ := Option.map_eq_some_iff.1 hd
      rw [if_pos hx', he d' hd']
      rfl
    · rename_i hx'
      rw [if_neg hx']
      split at hd
      · cases hd
      · rename_i hesi
        rw [if_neg hesi]
        exact he d hd

/-- The frames of a run are those that a chart tells of. -/
structure Run.Keeps (t : ScopeTree) (ms : Nat → Spot) (r : Run) : Prop where
  chain : Spells r.frames r.current (t.links (ms r.pos).scope)
  side : ∀ d, (ms r.pos).side = some d → r.side = r.follow d
  back : ∀ (n : Nat) (F : Frame) (pos : Nat) (caller : Option Nat), r.frames[n]? = some F →
    F.back = some (pos, caller) →
    (∀ k, caller = some k → k < n) ∧ Spells r.frames caller (t.links (ms pos).scope) ∧
    (ms pos).side = none

section

variable {Γ : Ground} {code : Code} {ms : Nat → Spot}

theorem Charts.plain (hc : Charts Γ (fun _ _ => False) code ms .outside .outside) {i : Nat}
    {x : Line} (hx : code[i]? = some x) (hkind : x.kind = .plain) :
    (ms (i + 1)).scope = (ms i).scope ∧ ∀ d, (ms (i + 1)).side = some d →
    x.shift (ms i).side = some d := by
  have hcharted := (hc.lines i x hx).1
  unfold Line.Charted at hcharted
  rw [hkind] at hcharted
  exact ⟨hcharted.1, hcharted.2.1⟩

/-- Only plain lines write `esi`. -/
theorem Line.writesEsi_eq_false {x : Line} (h : x.kind ≠ .plain) : x.writesEsi = false := by
  unfold Line.kind at h
  split at h <;> first | rfl | exact absurd rfl h

/-- A line behind which control goes on changes the spot as a plain line does. -/
theorem Charts.fall (hc : Charts Γ (fun _ _ => False) code ms .outside .outside) {i : Nat}
    {x : Line} (hx : code[i]? = some x) (hcalm : x.isCalm = true) (hend : ¬ code.EndsAt i) :
    (ms (i + 1)).scope = (ms i).scope ∧ ∀ d, (ms (i + 1)).side = some d →
    x.shift (ms i).side = some d := by
  by_cases hplain : x.kind = .plain
  · exact hc.plain hx hplain
  have hsame : ms (i + 1) = ms i := by
    have hcharted := (hc.lines i x hx).1
    unfold Line.Charted at hcharted
    cases hkind : x.kind with
    | plain => exact absurd hkind hplain
    | label l =>
      rw [hkind] at hcharted
      exact hcharted
    | jcc l =>
      rw [hkind] at hcharted
      exact hcharted.1
    | kernel =>
      rw [hkind] at hcharted
      rcases hcharted with ⟨hms, -⟩ | ⟨hlast, -⟩
      · exact hms
      · exact absurd hlast hend
    | verbatim =>
      rw [hkind] at hcharted
      exact hcharted.2.trans hcharted.1.symm
    | jmp l | leave | ret | frame =>
      -- control does not go on behind these, or a frame changes with them
      unfold Line.kind at hkind
      split at hkind <;> cases hkind
      cases hcalm
  rw [hsame, Line.shift_of_not_writesEsi (Line.writesEsi_eq_false hplain)]
  exact ⟨rfl, fun _ hd => hd⟩

/-- The spot behind the prologue of a block or of a function. -/
theorem Charts.clear (hc : Charts Γ (fun _ _ => False) code ms .outside .outside) {i : Nat}
    {l : Label} (hpre : sub esp l :: Convention.clearFrame l <+: code.drop i) {k : ScopeId}
    (hk : ms i = .within k) : ms (i + 5) = .within k := by
  have hrun :
      ∀ {c : Code} {i : Nat}, c <+: code.drop i → (∀ x ∈ c, x.kind = .plain ∧ x ≠ mov esi ebp) →
      ms i = .within k → ms (i + c.length) = .within k := by
    intro c
    induction c with
    | nil => exact fun _ _ h => h
    | cons x c ih =>
      intro i hpre hplain hk
      obtain ⟨hx, hrest⟩ := Code.prefix_cons hpre
      obtain ⟨hkind, hne⟩ := hplain x List.mem_cons_self
      obtain ⟨hscope, hside⟩ := hc.plain hx hkind
      rw [List.length_cons, Nat.add_comm c.length, ← Nat.add_assoc]
      refine ih hrest (fun y hy => hplain y (List.mem_cons_of_mem _ hy)) ?_
      rw [hk] at hscope hside
      have hnone : (ms (i + 1)).side = none := by
        rw [Option.eq_none_iff_forall_ne_some]
        intro d hd
        have hshift := hside d hd
        unfold Line.shift at hshift
        rw [if_neg hne] at hshift
        split at hshift
        · cases hshift
        · split at hshift <;> cases hshift
      generalize ms (i + 1) = m at hscope hnone
      cases m
      cases hscope
      cases hnone
      rfl
  exact hrun hpre (by simp [Line.kind, Convention.clearFrame, sub, mov, Asm.xor, bare]) hk

theorem Run.Keeps.back_take {t : ScopeTree} {r : Run} (h : r.Keeps t ms) {n m : Nat} {F : Frame}
    {pos : Nat} {caller : Option Nat} (hF : (r.frames.take n)[m]? = some F)
    (hback : F.back = some (pos, caller)) :
    (∀ k, caller = some k → k < m) ∧ Spells (r.frames.take n) caller (t.links (ms pos).scope) ∧
      (ms pos).side = none := by
  have hm : m < n := by
    have hlt := (List.getElem?_eq_some_iff.1 hF).1
    rw [List.length_take] at hlt
    omega
  rw [List.getElem?_take_of_lt hm] at hF
  obtain ⟨hlt, hspells, hside⟩ := h.back m F pos caller hF hback
  exact ⟨hlt, hspells.take fun k hk => Nat.lt_trans (hlt k hk) hm, hside⟩

theorem Run.Keeps.back_append {t : ScopeTree} {r : Run} (h : r.Keeps t ms) {G : Frame}
    (hG : ∀ pos caller, G.back = some (pos, caller) → (∀ k, caller = some k → k < r.frames.length) ∧
      Spells r.frames caller (t.links (ms pos).scope) ∧ (ms pos).side = none)
    {m : Nat} {F : Frame} {pos : Nat} {caller : Option Nat} (hF : (r.frames ++ [G])[m]? = some F)
    (hback : F.back = some (pos, caller)) :
    (∀ k, caller = some k → k < m) ∧ Spells (r.frames ++ [G]) caller (t.links (ms pos).scope) ∧
      (ms pos).side = none := by
  rcases Nat.lt_or_ge m r.frames.length with hm | hm
  · rw [List.getElem?_append_left hm] at hF
    obtain ⟨hlt, hspells, hside⟩ := h.back m F pos caller hF hback
    exact ⟨hlt, hspells.append _, hside⟩
  · rw [List.getElem?_append_right hm] at hF
    obtain rfl := List.mem_singleton.1 (List.mem_of_getElem? hF)
    obtain ⟨hlt, hspells, hside⟩ := hG pos caller hback
    exact ⟨fun k hk => Nat.lt_of_lt_of_le (hlt k hk) hm, hspells.append _, hside⟩

/-- A run that comes to the code of a scope, with frames that spell the scopes around it. -/
theorem Run.Keeps.of_within {t : ScopeTree} {r : Run} {k : ScopeId} (hspot : ms r.pos = .within k)
    (hchain : Spells r.frames r.current (t.symbols k))
    (hback : ∀ (n : Nat) (F : Frame) (pos : Nat) (caller : Option Nat), r.frames[n]? = some F →
      F.back = some (pos, caller) → (∀ k, caller = some k → k < n) ∧
        Spells r.frames caller (t.links (ms pos).scope) ∧ (ms pos).side = none) : r.Keeps t ms := by
  refine ⟨?_, fun d hd => ?_, hback⟩
  · rw [hspot]
    exact hchain
  · rw [hspot] at hd
    cases hd

theorem Run.Keeps.enter (hc : Charts Γ (fun _ _ => False) code ms .outside .outside)
    (ht : Γ.tree.Ordered) {r : Run}
    (h : r.Keeps Γ.tree ms) {l : Label} (hpre : Convention.blockPrologue l <+: code.drop r.pos) :
    Run.Keeps Γ.tree ms ⟨r.pos + 7, r.frames ++ [⟨l, r.current, none⟩], some r.frames.length,
      r.side⟩ := by
  obtain ⟨hpush, hrest⟩ := Code.prefix_cons hpre
  obtain ⟨hframe, hclear⟩ := Code.prefix_cons hrest
  obtain ⟨hsub, -⟩ := Code.prefix_cons hclear
  have hfirst := (hc.plain hpush rfl).1
  obtain ⟨-, k, henters | hbegins⟩ := (hc.lines _ _ hframe).1
  · cases hsub.symm.trans henters.symbol
    refine .of_within (hc.clear hclear henters.next) ?_ fun n F pos caller hF hback =>
      h.back_append (fun _ _ heq => by cases heq) hF hback
    have hchain := ht.links_eq henters.lt
    rw [henters.parent, hfirst] at hchain
    show Spells _ _ (Γ.tree.links (some k))
    rw [hchain]
    exact h.chain.push _ none
  · obtain ⟨y, hy, hne, -⟩ := hbegins.pushed
    exact absurd (Option.some.inj (hy.symm.trans hpush)) hne

theorem Run.Keeps.lend (hc : Charts Γ (fun _ _ => False) code ms .outside .outside) {t : ScopeTree}
    {r : Run} (h : r.Keeps t ms) (hpre : Primitive.map <+: code.drop r.pos) :
    Run.Keeps t ms { r with pos := r.pos + 9, side := none } := by
  obtain ⟨h₀, hrest⟩ := Code.prefix_cons hpre
  obtain ⟨h₁, hrest⟩ := Code.prefix_cons hrest
  obtain ⟨h₂, hrest⟩ := Code.prefix_cons hrest
  obtain ⟨h₃, hrest⟩ := Code.prefix_cons hrest
  obtain ⟨h₄, hrest⟩ := Code.prefix_cons hrest
  obtain ⟨h₅, hrest⟩ := Code.prefix_cons hrest
  obtain ⟨h₆, hrest⟩ := Code.prefix_cons hrest
  obtain ⟨h₇, hrest⟩ := Code.prefix_cons hrest
  obtain ⟨h₈, -⟩ := Code.prefix_cons hrest
  have hkernel : ms (r.pos + 8) = ms (r.pos + 7) := by
    rcases (hc.lines _ _ h₇).1 with ⟨hms, -⟩ | ⟨⟨-, -, hclear, -⟩, -⟩
    · exact hms
    · rw [Nat.add_sub_cancel] at hclear
      cases h₆.symm.trans hclear
  have hscope : (ms (r.pos + 9)).scope = (ms r.pos).scope := by
    rw [(hc.plain h₈ rfl).1, hkernel, (hc.plain h₆ rfl).1, (hc.plain h₅ rfl).1, (hc.plain h₄ rfl).1,
      (hc.plain h₃ rfl).1, (hc.plain h₂ rfl).1, (hc.plain h₁ rfl).1, (hc.plain h₀ rfl).1]
  refine ⟨?_, fun d hd => ?_, h.back⟩
  · show Spells r.frames r.current (t.links (ms (r.pos + 9)).scope)
    rw [hscope]
    exact h.chain
  · -- `esi` got an argument of the call
    have h₈' := (hc.plain h₈ rfl).2 d hd
    rw [hkernel] at h₈'
    have h₄' := (hc.plain h₄ rfl).2 d ((hc.plain h₅ rfl).2 d ((hc.plain h₆ rfl).2 d h₈'))
    cases h₄'

end

/-! ### Steps -/

section

variable {p : Program} {session : Session} {comments : Bool} {t : State} {entry : String}
  {F : ScopeId → List Slot} {ms : Nat → Spot}

theorem Code.symbol_of_prologue {code : Code} {i : Nat} {l l' : Label}
    (h : Convention.functionPrologue l <+: code.drop i)
    (h' : Convention.functionPrologue l' <+: code.drop i) : l' = l := by
  have hline : ∀ {g : Label}, Convention.functionPrologue g <+: code.drop i →
      (code.drop i)[3]? = some (sub esp g) := fun hg =>
    List.prefix_iff_getElem?.1 hg 3 (show 3 < 8 by decide)
  have heq := (hline h').symm.trans (hline h)
  cases heq
  rfl

/-- Behind the prologue of a function control is in the scope of its body, which is declared in the
scope that declares the function. -/
theorem Surveys.callee (h : Surveys p session comments t entry ms)
    (hnodup : (Code.defines (t.listing.textLines entry)).Nodup) {i j : Nat} {f : Signature}
    {l : Label} (hi : i < t.tree.size) (hf : f ∈ (t.tree.scope i).functions)
    (hlabel : (t.listing.textLines entry)[j]? = some (.label f.entry))
    (hpre : Convention.functionPrologue l <+: (t.listing.textLines entry).drop (j + 1)) :
    ∃ k : Nat, k < t.tree.size ∧ (t.tree.scope k).parent = some i ∧ (t.tree.scope k).frameSize = l ∧
      ms (j + 9) = .within k := by
  obtain ⟨j', k, hk, -, hparent, hlabel', hpre'⟩ := h.located i hi f hf
  obtain rfl := Code.eq_of_label hnodup hlabel hlabel'
  obtain rfl := Code.symbol_of_prologue hpre' hpre
  refine ⟨k, hk, hparent, rfl, ?_⟩
  obtain ⟨-, hrest⟩ := Code.prefix_cons hpre
  obtain ⟨hlink, hrest⟩ := Code.prefix_cons hrest
  obtain ⟨hframe, hclear⟩ := Code.prefix_cons hrest
  obtain ⟨hsub, -⟩ := Code.prefix_cons hclear
  obtain ⟨-, k', henters | hbegins⟩ := (h.charts.lines _ _ hframe).1
  · cases hlink.symm.trans henters.pushed
  · have hsymbol := hsub.symm.trans hbegins.symbol
    have heq : (t.tree.scope k).frameSize = (t.tree.scope k').frameSize := by
      simpa [sub] using hsymbol
    obtain rfl := h.laid.symbol_inj k k' hk hbegins.lt heq
    exact h.charts.clear hclear hbegins.next

/-- A function is declared in one scope. -/
theorem Surveys.scope_of_entry (h : Surveys p session comments t entry ms)
    (hnodup : (Code.defines (t.listing.textLines entry)).Nodup) {i i' : Nat} {f f' : Signature}
    (hi : i < t.tree.size) (hf : f ∈ (t.tree.scope i).functions) (hi' : i' < t.tree.size)
    (hf' : f' ∈ (t.tree.scope i').functions) (hentry : f'.entry = f.entry) : i' = i := by
  obtain ⟨j, k, hk, -, hparent, hlabel, hpre⟩ := h.located i hi f hf
  obtain ⟨k', hk', hparent', hsymbol, -⟩ := h.callee hnodup hi' hf' (hentry ▸ hlabel) hpre
  obtain rfl := h.laid.symbol_inj k' k hk' hk hsymbol
  exact Option.some.inj (hparent'.symm.trans hparent)

/-- The frame that is handed over to a callee. -/
theorem Run.Keeps.handed (h : Surveys p session comments t entry ms) {r : Run}
    (hr : r.Keeps t.tree ms) {callee : Label}
    (hcall : (t.listing.textLines entry)[r.pos]? = some (Asm.call callee)) :
    ∃ base i f, 0 < r.pos ∧ (t.listing.textLines entry)[r.pos - 1]? = some (push (.reg base)) ∧
      i < t.tree.size ∧ f ∈ (t.tree.scope i).functions ∧ f.entry = callee ∧
      Spells r.frames (r.pointed base) (t.tree.symbols i) ∧
      (ms (r.pos + 1)).scope = (ms r.pos).scope ∧ (ms (r.pos + 1)).side = none := by
  obtain ⟨hscope, -, hhands⟩ := (h.charts.lines _ _ hcall).1
  obtain ⟨d, base, i, f, hpos, hpush, hbase, hd, hf, hentry, hside⟩ := hhands callee rfl
  have hi : i < t.tree.size := by
    refine Nat.lt_of_not_le fun hle => ?_
    change f ∈ (t.tree.scope i).functions at hf
    rw [ScopeTree.scope_of_le hle] at hf
    cases hf
  have hlink : r.pointed base = r.follow d := by
    rcases hbase with ⟨rfl, rfl⟩ | ⟨rfl, hd'⟩
    · rfl
    · exact hr.side d hd'
  obtain ⟨hdrop, hlt⟩ := h.laid.formed.ordered.drop_links hd
  have hspells := hr.chain.follow (Nat.le_of_lt hlt)
  rw [hdrop, ← hlink] at hspells
  exact ⟨base, i, f, hpos, hpush, hi, hf, hentry, hspells, hscope, hside⟩

theorem Run.Keeps.leave (hs : Surveys p session comments t entry ms) {r : Run}
    (h : r.Keeps t.tree ms) {n : Nat}
    {G : Frame} (hx : (t.listing.textLines entry)[r.pos]? = some (bare .leave))
    (hcurrent : r.current = some n)
    (hG : r.frames[n]? = some G) :
    Run.Keeps t.tree ms ⟨r.pos + 1, r.frames.take n, G.link, r.side⟩ := by
  obtain ⟨k, hk, hscope, -, hnext⟩ := (hs.charts.lines _ _ hx).1
  have hspells := h.chain
  rw [hscope, hcurrent, hs.laid.formed.ordered.links_eq hk] at hspells
  obtain ⟨G', hG', -, hlink, hrest⟩ := hspells
  cases hG.symm.trans hG'
  refine ⟨?_, fun d hd => ?_, fun m G pos caller hG hback => h.back_take hG hback⟩
  · show Spells _ _ (t.tree.links (ms (r.pos + 1)).scope)
    rw [hnext]
    exact hrest.take hlink
  · change (ms (r.pos + 1)).side = some d at hd
    rw [hnext] at hd
    cases hd

theorem Run.Keeps.call (hs : Surveys p session comments t entry ms)
    (hnodup : (Code.defines (t.listing.textLines entry)).Nodup) {r : Run} (h : r.Keeps t.tree ms)
    {base : Reg} {callee : Label} {j : Nat} {l : Label}
    (hpush : (t.listing.textLines entry)[r.pos - 1]? = some (push (.reg base)))
    (hcall : (t.listing.textLines entry)[r.pos]? = some (Asm.call callee))
    (hlabel : (t.listing.textLines entry)[j]? = some (.label callee))
    (hprologue : Convention.functionPrologue l <+: (t.listing.textLines entry).drop (j + 1)) :
    Run.Keeps t.tree ms
      ⟨j + 9, r.frames ++ [⟨l, r.pointed base, some (r.pos + 1, r.current)⟩], some r.frames.length,
        none⟩ := by
  obtain ⟨base', i, f, -, hpush', hi, hf, rfl, hspells, hscope, hside⟩ := h.handed hs hcall
  cases hpush.symm.trans hpush'
  obtain ⟨k, hk, hparent, rfl, hspot⟩ := hs.callee hnodup hi hf hlabel hprologue
  refine .of_within hspot ?_ fun m G pos caller hG hback =>
    h.back_append (fun pos caller heq => ?_) hG hback
  · have hlinks := hs.laid.formed.ordered.links_eq hk
    rw [hparent] at hlinks
    show Spells _ _ (t.tree.links (some k))
    rw [hlinks]
    exact hspells.push _ _
  · cases heq
    rw [hscope]
    exact ⟨fun k hk => h.chain.lt hk, h.chain, hside⟩

theorem Run.Keeps.jump (hs : Surveys p session comments t entry ms)
    (hnodup : (Code.defines (t.listing.textLines entry)).Nodup) {r : Run} (h : r.Keeps t.tree ms)
    {x : Line} {l : Label} {j : Nat} (hx : (t.listing.textLines entry)[r.pos]? = some x)
    (hjump : x = jmp l ∨ ∃ c, x = jcc c l)
    (hlabel : (t.listing.textLines entry)[j]? = some (.label l)) :
    Run.Keeps t.tree ms { r with pos := j } := by
  have hspot : ms j = ms r.pos := by
    have hleads : Code.LeadsTo (fun _ _ => False) (t.listing.textLines entry) ms r.pos l := by
      rcases hjump with rfl | ⟨c, rfl⟩
      · exact (hs.charts.lines _ _ hx).1.1
      · exact (hs.charts.lines _ _ hx).1.2
    obtain ⟨j', hlabel', hms⟩ := hleads.resolve_left id
    rw [Code.eq_of_label hnodup hlabel hlabel', hms]
  refine ⟨?_, fun d hd => ?_, h.back⟩
  · show Spells r.frames r.current (t.tree.links (ms j).scope)
    rw [hspot]
    exact h.chain
  · change (ms j).side = some d at hd
    rw [hspot] at hd
    exact (h.side d hd).trans (r.follow_moved _ _ d).symm

theorem Run.Step.keeps (hs : Surveys p session comments t entry ms)
    (hnodup : (Code.defines (t.listing.textLines entry)).Nodup) {r r' : Run} (h : r.Keeps t.tree ms)
    (hstep : Run.Step (t.listing.textLines entry) r r') : r'.Keeps t.tree ms := by
  cases hstep with
  | enter hpre => exact h.enter hs.charts hs.laid.formed.ordered hpre
  | leave hx hcurrent hG => exact h.leave hs hx hcurrent hG
  | call _ hpush hcall hlabel hprologue => exact h.call hs hnodup hpush hcall hlabel hprologue
  | @ret n G pos caller hpre hcurrent hG hback =>
    obtain ⟨hlt, hspells, hside⟩ := h.back n G pos caller hG hback
    refine ⟨hspells.take hlt, fun d hd => ?_, fun m G pos caller hG hback => h.back_take hG hback⟩
    cases hside.symm.trans hd
  | lend hpre => exact h.lend hs.charts hpre
  | jump hx hjump hlabel => exact h.jump hs hnodup hx hjump hlabel
  | fall hx hcalm hend =>
    obtain ⟨hscope, hside⟩ := hs.charts.fall hx hcalm hend
    refine ⟨?_, fun d hd => ?_, h.back⟩
    · show Spells r.frames r.current (t.tree.links (ms (r.pos + 1)).scope)
      rw [hscope]
      exact h.chain
    · exact (Run.chased_eq h.side (hside d hd)).trans (r.follow_moved _ _ d).symm

theorem Run.Reaches.keeps (hs : Surveys p session comments t entry ms)
    (hnodup : (Code.defines (t.listing.textLines entry)).Nodup) {r₀ r : Run}
    (h₀ : r₀.Keeps t.tree ms)
    (h : Run.Reaches (t.listing.textLines entry) r₀ r) : r.Keeps t.tree ms := by
  induction h with
  | start => exact h₀
  | step _ hstep ih => exact hstep.keeps hs hnodup ih

theorem Run.IsStart.keeps {Γ : Ground} {code : Code}
    (hc : Charts Γ (fun _ _ => False) code ms .outside .outside)
    {entry : String} {r : Run} (h : Run.IsStart code entry r) : r.Keeps Γ.tree ms := by
  obtain ⟨hi⟩ := h
  have hspot := (hc.lines _ _ hi).1.2
  refine ⟨?_, fun d hd => ?_, nofun⟩
  · show Spells [] none (Γ.tree.links (ms _).scope)
    rw [hspot]
    trivial
  · rw [hspot] at hd
    cases hd

/-! ### Units -/

/-- There is a frame at a place on the stack, and it belongs to the scope with the symbol. -/
def Run.HasFrame (r : Run) (place : Option Nat) (symbol : Label) : Prop :=
  ∃ n F, place = some n ∧ r.frames[n]? = some F ∧ F.symbol = symbol

theorem Spells.hasFrame {r : Run} {place : Option Nat} {g : Label} {chain : List Label}
    (h : Spells r.frames place (g :: chain)) : r.HasFrame place g := by
  cases place with
  | none => exact h.elim
  | some n =>
    obtain ⟨F, hF, hsymbol, -⟩ := h
    exact ⟨n, F, rfl, hF, hsymbol⟩

theorem Spells.hasFrame_of_path {r : Run} {tree : ScopeTree} {i : ScopeId}
    (h : Spells r.frames r.current (tree.symbols i)) {k j : Nat} (hj : (tree.path i)[k]? = some j) :
    r.HasFrame (r.follow k) (tree.scope j).frameSize := by
  obtain ⟨hk, hget⟩ := List.getElem?_eq_some_iff.1 hj
  have hlength : (tree.symbols i).length = (tree.path i).length := List.length_map ..
  have hfollow := h.follow (k := k) (by omega)
  have hdrop :
      (tree.symbols i).drop k = (tree.scope j).frameSize :: (tree.symbols i).drop (k + 1) := by
    rw [List.drop_eq_getElem_cons (by omega)]
    exact congrArg (· :: _) ((List.getElem_map ..).trans (by rw [hget]))
  rw [hdrop] at hfollow
  exact hfollow.hasFrame

theorem Program.current_lt_of_mem_trace (hrun : lowerUnit p (.start session comments) = .ok () t)
    {ev : Event} (hev : ev ∈ p.trace session comments) {u : State} {ahead : Nat}
    (hspot : ev.spot? = some (u, ahead)) : u.current < t.tree.size := by
  have hstate : ev.state? = some u := by
    cases ev with
    | statement | expression =>
      cases hspot
      rfl
    | finish | spent => cases hspot
  obtain ⟨hu, -, holder⟩ := Program.older_of_mem_trace hrun hev hstate
  exact Nat.lt_of_lt_of_le hu.current_lt holder.size

/-- Where a run is, the links spell the scopes around the statement or expression that begins there.
Where it calls a function, it hands over a frame of the scope that declares the function. -/
structure Run.Linked (p : Program) (session : Session) (comments : Bool) (t : State) (code : Code)
    (r : Run) : Prop where
  spells : ∀ ev ∈ p.trace session comments, ∀ u ahead, ev.spot? = some (u, ahead) →
    r.pos = t.listing.lineOf u ahead → u.current < t.tree.size ∧
      ∀ k i : Nat, (t.tree.path u.current)[k]? = some i →
      r.HasFrame (r.follow k) (t.tree.scope i).frameSize
  hands : ∀ entry, code[r.pos]? = some (Asm.call entry) → ∃ base, 0 < r.pos ∧
    code[r.pos - 1]? = some (push (.reg base)) ∧
    (∃ i : Nat, i < t.tree.size ∧ ∃ f ∈ (t.tree.scope i).functions, f.entry = entry) ∧
    ∀ i : Nat, i < t.tree.size → ∀ f ∈ (t.tree.scope i).functions, f.entry = entry →
      r.HasFrame (r.pointed base) (t.tree.scope i).frameSize

theorem Run.Keeps.hands (h : Surveys p session comments t entry ms)
    (hnodup : (Code.defines (t.listing.textLines entry)).Nodup) {r : Run} (hr : r.Keeps t.tree ms)
    {callee : Label} (hcall : (t.listing.textLines entry)[r.pos]? = some (Asm.call callee)) :
    ∃ base, 0 < r.pos ∧ (t.listing.textLines entry)[r.pos - 1]? = some (push (.reg base)) ∧
      (∃ i : Nat, i < t.tree.size ∧ ∃ f ∈ (t.tree.scope i).functions, f.entry = callee) ∧
      ∀ i : Nat, i < t.tree.size → ∀ f ∈ (t.tree.scope i).functions, f.entry = callee →
        r.HasFrame (r.pointed base) (t.tree.scope i).frameSize := by
  obtain ⟨base, i, f, hpos, hpush, hi, hf, hentry, hspells, -⟩ := hr.handed h hcall
  refine ⟨base, hpos, hpush, ⟨i, hi, f, hf, hentry⟩, fun i' hi' f' hf' hentry' => ?_⟩
  obtain rfl := h.scope_of_entry hnodup hi hf hi' hf' (hentry'.trans hentry.symm)
  have hlinks : t.tree.symbols i' = _ := h.laid.formed.ordered.links_eq hi'
  rw [hlinks] at hspells
  exact hspells.hasFrame

end

/-- In every run of a unit `ebp` points to a frame of the scope in which the statement or expression
at hand was compiled, and the links lead from there to frames of the scopes around it, one by one.
Every call, from any depth and under any recursion, hands over a frame of the scope that declares
the callee.  Scopes are told apart by the symbols of their frames. -/
theorem links_spell_scopes {session : Session} {options : Options} {program : Program}
    {a : Assembly} (h : (compileIn session options program).1 = .ok a) :
    ∃ t, lowerUnit program (.start session options.comments) = .ok () t ∧
      a.code = t.listing.assemble options.entry ∧
      (∀ i j : Nat, i < t.tree.size → j < t.tree.size →
        (t.tree.scope i).frameSize = (t.tree.scope j).frameSize → i = j) ∧
      (∀ ev ∈ program.trace session options.comments, ∀ u ahead, ev.spot? = some (u, ahead) →
        ev.Begins ((Code.inText a.code).drop (t.listing.lineOf u ahead))) ∧
      ∀ r₀ r, Run.IsStart (Code.inText a.code) options.entry r₀ →
        Run.Reaches (Code.inText a.code) r₀ r →
        r.Linked program session options.comments t (Code.inText a.code) := by
  obtain ⟨t, hrun, rfl, -⟩ := compileIn_eq_ok h
  obtain ⟨ms, hsurvey⟩ := lowerUnit_surveyed hrun options.entry
  have hnodup := lowerUnit_textLines_nodup hrun options.entry
  refine ⟨t, hrun, rfl, hsurvey.laid.symbol_inj, ?_⟩
  show (∀ ev ∈ _, ∀ u ahead, _ →
    Event.Begins ev ((Code.inText (t.listing.assemble options.entry)).drop _)) ∧
    ∀ r₀ r, Run.IsStart (Code.inText (t.listing.assemble options.entry)) options.entry r₀ →
      Run.Reaches (Code.inText (t.listing.assemble options.entry)) r₀ r →
      Run.Linked _ _ _ t (Code.inText (t.listing.assemble options.entry)) r
  rw [Listing.inText_assemble (lowerUnit_isCode hrun)]
  refine ⟨fun ev hev u ahead hspot => (hsurvey.spots ev hev u ahead hspot).2, fun r₀ r hr₀ hr => ?_⟩
  have hkeeps := hr.keeps hsurvey hnodup (hr₀.keeps hsurvey.charts)
  refine ⟨fun ev hev u ahead hspot hpos => ?_, fun entry hcall => hkeeps.hands hsurvey hnodup hcall⟩
  have hspells := hkeeps.chain
  rw [hpos, (hsurvey.spots ev hev u ahead hspot).1] at hspells
  exact ⟨Program.current_lt_of_mem_trace hrun hev hspot, fun k i hi => hspells.hasFrame_of_path hi⟩

theorem links_spell_scopes_entangled : ∃ a t,
    (compileIn .empty { comments := false } entangled).1 = .ok a ∧
      lowerUnit entangled (.start .empty false) = .ok () t ∧
      ∀ r₀ r, Run.IsStart (Code.inText a.code) "_start" r₀ → Run.Reaches (Code.inText a.code) r₀ r →
        r.Linked entangled .empty false t (Code.inText a.code) := by
  have hok : (compileIn .empty { comments := false } entangled).1.isOk = true := by decide +kernel
  obtain ⟨a, ha⟩ := exists_of_isOk hok
  obtain ⟨t, hrun, -, -, -, hlinked⟩ := links_spell_scopes ha
  exact ⟨a, t, ha, hrun, hlinked⟩

end KuAsm
