import KuAsm.Proofs.Trace

/-!
# Charts of code

While the program runs, `ebp` points to a frame of the scope whose code is running, and behind a
chase `esi` points to a frame further outwards.  A *chart* says at every line of a piece of code
which scope that is.  It is right if the spots around each line fit to it: a prologue leads into a
scope, `leave` leads out of one, a jump leads to a label at the same spot, a call hands over the
frame that the callee is declared in, and whatever is relative to a frame is a slot of the scope
that the register points to.

Pieces of code are charted one by one and put together.  A jump may leave its piece as long as it is
known which spot its label has; such labels are *pending*, until the label is found in a larger
piece.

## Main definitions

* `Ground`: the scopes of a unit and the slots of their frames.
* `Spot`, `Line.Charted`, `Charts`: the spots around the lines of a piece of code.
* `Piece`: code that has a chart, with what is known to stand in it.

## Main statements

* `Piece.append`: pieces one behind the other.
* `Piece.close`: a pending label was found.
-/

namespace KuAsm

open Asm Reg

variable {a : Mem}

/-! ### Operands -/

/-- The two slots of a value to be released. -/
def Staged.slots (p : Staged) : List Slot := [p.address, p.size]

/-- The memory operand, if there is one. -/
def Operand.mems : Operand → List Mem
  | mem m => [m]
  | _ => []

/-- The memory operands of an instruction. -/
def Instr.mems : Instr → List Mem
  | .mov d s => d.mems ++ s.mems
  | .movzx _ s => s.mems
  | .lea _ m => [m]
  | .push s => s.mems
  | .arith _ d s => d.mems ++ s.mems
  | .unary _ d => d.mems
  | .floatMem _ m => [m]
  | _ => []

/-- Whether an instruction loads an address. -/
def Instr.isLea : Instr → Bool
  | .lea _ _ => true
  | _ => false

/-- The memory operands of a line. -/
def Line.mems : Line → List Mem
  | .instr i => i.mems
  | _ => []

/-- Whether a line loads an address. -/
def Line.isLea : Line → Bool
  | .instr i => i.isLea
  | _ => false

/-- Whether a line changes `esi`. -/
def Line.writesEsi : Line → Bool
  | .instr (.mov (.reg .esi) _) | .instr (.movzx .esi _) | .instr (.lea .esi _) | .instr (.pop .esi)
  | .instr (.arith _ (.reg .esi) _) | .instr (.unary _ (.reg .esi)) | .instr (.setcc _ .esi)
  | .instr (.bare .copyBytes) | .instr (.call _) => true
  | _ => false

/-! ### Lines -/

/-- What a line does to frames and to control. -/
inductive Line.Kind where
  | plain
  | label (l : Label)
  | jmp (l : Label)
  | jcc (l : Label)
  | leave
  | ret
  /-- The frame pointer points to a new frame. -/
  | frame
  | kernel
  /-- A line between the texts. -/
  | verbatim

/-- The kind of a line. -/
def Line.kind : Line → Kind
  | .label l => .label l
  | .instr (.jmp l) => .jmp l
  | .instr (.jcc _ l) => .jcc l
  | .instr (.bare .leave) => .leave
  | .instr (.bare .ret) => .ret
  | .instr (.mov (.reg .ebp) (.reg .esp)) => .frame
  | .instr .kernel => .kernel
  | .verbatim _ => .verbatim
  | _ => .plain

/-- Whether a line is an instruction that does not clear `ebx`, as the one in front of the end of
the process does. -/
def Line.isBusy : Line → Bool
  | .instr (.arith .xor (.reg .ebx) (.reg .ebx)) => false
  | .instr _ => true
  | _ => false

/-- The process ends with the line at this position. -/
def Code.EndsAt (code : Code) (i : Nat) : Prop :=
  2 ≤ i ∧ code[i - 2]? = some (mov eax (.imm Convention.sysExit)) ∧
    code[i - 1]? = some (xor ebx ebx) ∧ code[i]? = some kernel

/-! ### Spots -/

/-- The scopes of a unit, and the slots of their frames. -/
structure Ground where
  tree : ScopeTree
  slots : ScopeId → List Slot

/-- The frames that are known at a line. -/
structure Spot where
  /-- The scope that `ebp` points to a frame of, if there is any frame. -/
  scope : Option ScopeId
  /-- How far out the frame is that `esi` points to. -/
  side : Option Nat

namespace ScopeTree

/-- The scopes around a place, outside of all scopes or in one. -/
def enclosing (t : ScopeTree) : Option ScopeId → List ScopeId
  | none => []
  | some i => t.path i

/-- The function whose text a place is in. -/
def home (t : ScopeTree) (o : Option ScopeId) : Option ScopeId :=
  (t.enclosing o).find? fun i => (t.scope i).function.isSome

end ScopeTree

/-- Outside of all frames. -/
def Spot.outside : Spot := ⟨none, none⟩

/-- In the code of a scope. -/
def Spot.within (i : ScopeId) : Spot := ⟨some i, none⟩

/-- The scope whose frame a register points to. -/
def Spot.Points (Γ : Ground) (m : Spot) (r : Reg) (i : ScopeId) : Prop :=
  r = ebp ∧ (Γ.tree.enclosing m.scope)[0]? = some i ∨
    r = esi ∧ ∃ d, m.side = some d ∧ (Γ.tree.enclosing m.scope)[d]? = some i

/-- An operand is a slot of the frame that its register points to. -/
def Spot.Holds (Γ : Ground) (m : Spot) (x : Line) (a : Mem) : Prop :=
  ∃ i s a', m.Points Γ a.base i ∧ s ∈ Γ.slots i ∧ Mem.slot a.base s = .ok a' ∧
    a = if x.isLea then a'.address else a'

/-- Operands relative to frames are slots, apart from links, from arguments and from the address
that a function returns with. -/
def Line.Grasps (Γ : Ground) (m : Spot) (x : Line) : Prop :=
  ∀ a ∈ x.mems, a.base = ebp ∨ a.base = esi → m.Holds Γ x a ∨ x = mov esi (Mem.dword esi 0) ∨
    x = lea esp (Mem.dword ebp 4) ∨
    ∃ index disp, Convention.paramDisp index = .ok disp ∧ x = mov eax (Mem.dword ebp disp)

/-- How far out `esi` points behind a line. -/
def Line.shift (x : Line) (d : Option Nat) : Option Nat :=
  if x = mov esi ebp then some 0
  else if x = mov esi (Mem.dword esi 0) then d.map (· + 1)
  else if x.writesEsi then none
  else d

/-! ### Charts -/

section

variable (Γ : Ground) (J : Label → Spot → Prop) (code : Code) (ms : Nat → Spot) (i : Nat)

/-- The label has the spot of this line, or is pending with it. -/
def Code.LeadsTo (l : Label) : Prop :=
  J l (ms i) ∨ ∃ j : Nat, code[j]? = some (.label l) ∧ ms j = ms i

/-- The callee of a call is declared in the scope whose frame is handed over. -/
def Code.Hands (entry : Label) : Prop :=
  ∃ d base k f, 0 < i ∧ code[i - 1]? = some (push (.reg base)) ∧
    (base = ebp ∧ d = 0 ∨ base = esi ∧ (ms i).side = some d) ∧ (Γ.tree.enclosing (ms i).scope)[d]? =
      some k ∧ f ∈ (Γ.tree.scope k).functions ∧ f.entry = entry ∧ (ms (i + 1)).side = none

/-- The text of a function begins behind this line, or goes on in the same text. -/
def Code.Passes : Prop :=
  Γ.tree.home (ms (i + 1)).scope = Γ.tree.home (ms i).scope ∨
    ∃ k : Nat, k < Γ.tree.size ∧ ms (i + 1) = .within k ∧ (Γ.tree.scope k).function.isSome = true ∧
      Γ.tree.home (Γ.tree.scope k).parent = Γ.tree.home (ms i).scope

/-- The frame of a block is opened: the scope is one inside the scope at hand. -/
structure Code.Enters (k : ScopeId) : Prop where
  lt : k < Γ.tree.size
  pushed : code[i - 1]? = some (push ebp)
  symbol : code[i + 1]? = some (sub esp (Γ.tree.scope k).frameSize)
  parent : (Γ.tree.scope k).parent = (ms i).scope
  function : (Γ.tree.scope k).function = none
  next : ms (i + 1) = .within k

/-- The frame of a function is opened, behind a jump over its text. -/
structure Code.Begins (k : ScopeId) : Prop where
  lt : k < Γ.tree.size
  pushed : ∃ y, code[i - 1]? = some y ∧ y ≠ push ebp ∧ y.isBusy = true
  symbol : code[i + 1]? = some (sub esp (Γ.tree.scope k).frameSize)
  function : (Γ.tree.scope k).function.isSome = true
  here : ms i = .within k
  next : ms (i + 1) = .within k
  first : 4 ≤ i ∧ Γ.tree.home (ms (i - 4)).scope = Γ.tree.home (Γ.tree.scope k).parent

/-- A function returns; behind the size of its frame stands the label that the jump over its text
leads to. -/
structure Code.Returns (k : ScopeId) : Prop where
  lt : k < Γ.tree.size
  here : (ms i).scope = some k
  function : (Γ.tree.scope k).function.isSome = true
  size : ∃ n, code[i + 1]? = some (.constant (Γ.tree.scope k).frameSize n)
  next : Γ.tree.home (ms (i + 1)).scope = Γ.tree.home (Γ.tree.scope k).parent
  across : ∃ (j : Nat) (skip : Label), code[j]? = some (jmp skip) ∧
    code[i + 2]? = some (.label skip) ∧
    ms (j + 1) = .within k ∧ Γ.tree.home (ms j).scope = Γ.tree.home (Γ.tree.scope k).parent

/-- The spots around a line fit to it. -/
def Line.Charted (x : Line) : Prop :=
  match x.kind with
  | .plain => (ms (i + 1)).scope = (ms i).scope ∧
    (∀ d, (ms (i + 1)).side = some d → x.shift (ms i).side = some d) ∧
    ∀ entry, x = Asm.call entry → code.Hands Γ ms i entry
  | .label _ => ms (i + 1) = ms i
  | .jmp l => code.LeadsTo J ms i l ∧ Code.Passes Γ ms i
  | .jcc l => ms (i + 1) = ms i ∧ code.LeadsTo J ms i l
  | .leave =>
    ∃ k : Nat, k < Γ.tree.size ∧ (ms i).scope = some k ∧ (Γ.tree.scope k).function = none ∧
    ms (i + 1) = ⟨(Γ.tree.scope k).parent, none⟩
  | .ret => ∃ k, code.Returns Γ ms i k
  | .frame => 0 < i ∧ ∃ k, code.Enters Γ ms i k ∨ code.Begins Γ ms i k
  | .kernel => ms (i + 1) = ms i ∧ 0 < i ∧ (∃ y, code[i - 1]? = some y ∧ y.isBusy = true) ∨
    code.EndsAt i ∧ ms i = .outside ∧ ms (i + 1) = .outside
  | .verbatim => ms i = .outside ∧ ms (i + 1) = .outside

/-- The chart fits to all lines of a piece of code, and leads from one spot to another. -/
structure Charts (m m' : Spot) : Prop where
  first : ms 0 = m
  last : ms code.length = m'
  lines : ∀ (i : Nat) (x : Line), code[i]? = some x → x.Charted Γ J code ms i ∧ x.Grasps Γ (ms i)

end

section

variable {Γ : Ground} {J : Label → Spot → Prop} {code code' : Code} {ms ms' : Nat → Spot}
  {n i : Nat} {x : Line}

/-- A line looks only at lines of its own piece of code. -/
theorem Line.Charted.shift
    (hlines : ∀ (k : Nat) (y : Line), code[k]? = some y → code'[n + k]? = some y)
    (hspots : ∀ k, k ≤ code.length → ms' (n + k) = ms k) (hx : code[i]? = some x)
    (h : x.Charted Γ J code ms i) : x.Charted Γ J code' ms' (n + i) := by
  have hi : i < code.length := (List.getElem?_eq_some_iff.1 hx).1
  have hhere := hspots i (by omega)
  have hnext : ms' (n + i + 1) = ms (i + 1) := hspots (i + 1) hi
  have hback : ∀ (d : Nat) (y : Line), d ≤ i → code[i - d]? = some y → code'[n + i - d]? = some y :=
    fun d y hd hy => by
    rw [show n + i - d = n + (i - d) by omega]
    exact hlines _ _ hy
  have hspot : ∀ {j : Nat} {y : Line}, code[j]? = some y → ms' (n + j) = ms j ∧
      ms' (n + j + 1) = ms (j + 1) := by
    intro j y hj
    have hlt : j < code.length := (List.getElem?_eq_some_iff.1 hj).1
    exact ⟨hspots j (by omega), hspots (j + 1) hlt⟩
  have hleads : ∀ {l : Label}, code.LeadsTo J ms i l → code'.LeadsTo J ms' (n + i) l := by
    rintro l (hl | ⟨j, hj, hms⟩)
    · exact .inl (hhere ▸ hl)
    · exact .inr ⟨n + j, hlines _ _ hj, by rw [(hspot hj).1, hhere, hms]⟩
  -- whatever a kind of line asks of lines and spots around it is found `n` lines further on
  unfold Line.Charted at h ⊢
  split at h
  · rw [hhere, hnext]
    refine ⟨h.1, h.2.1, fun entry hcall => ?_⟩
    obtain ⟨d, base, k, f, hpos, hpush, hrest⟩ := h.2.2 entry hcall
    refine ⟨d, base, k, f, by omega, hback 1 _ hpos hpush, ?_⟩
    rw [hhere, hnext]
    exact hrest
  · rw [hhere, hnext]
    exact h
  · refine ⟨hleads h.1, ?_⟩
    unfold Code.Passes
    rw [hhere, hnext]
    exact h.2
  · rw [hhere, hnext]
    exact ⟨h.1, hleads h.2⟩
  · rw [hhere, hnext]
    exact h
  · obtain ⟨k, h⟩ := h
    refine ⟨k, h.lt, hhere ▸ h.here, h.function, ?_, hnext ▸ h.next, ?_⟩
    · obtain ⟨b, hb⟩ := h.size
      exact ⟨b, hlines _ _ hb⟩
    · obtain ⟨j, skip, hj, hskip, hms, hhome⟩ := h.across
      refine ⟨n + j, skip, hlines _ _ hj, hlines _ _ hskip, ?_, ?_⟩
      · rw [(hspot hj).2, hms]
      · rw [(hspot hj).1, hhome]
  · obtain ⟨hpos, k, h⟩ := h
    refine ⟨by omega, k, h.imp (fun h => ?_) fun h => ?_⟩
    · exact ⟨h.lt, hback 1 _ hpos h.pushed, hlines _ _ h.symbol, hhere ▸ h.parent, h.function,
        hnext.trans h.next⟩
    · obtain ⟨y, hy, hne⟩ := h.pushed
      obtain ⟨hle, hhome⟩ := h.first
      refine ⟨h.lt, ⟨y, hback 1 _ hpos hy, hne⟩, hlines _ _ h.symbol, h.function,
        hhere.trans h.here, hnext.trans h.next, by omega, ?_⟩
      rw [show n + i - 4 = n + (i - 4) by omega, hspots _ (by omega)]
      exact hhome
  · rw [hhere, hnext]
    refine h.imp (fun ⟨hms, hpos, y, hy, hbusy⟩ => ⟨hms, by omega, y, hback 1 _ hpos hy, hbusy⟩)
      fun ⟨⟨hle, h₂, h₁, h₀⟩, hms⟩ =>
      ⟨⟨by omega, hback 2 _ hle h₂, hback 1 _ (by omega) h₁, hlines _ _ h₀⟩, hms⟩
  · rw [hhere, hnext]
    exact h

/-- Fewer labels may be pending, if the others were found. -/
theorem Line.Charted.close {J' : Label → Spot → Prop}
    (hJ : ∀ l m, J l m → J' l m ∨ ∃ j : Nat, code[j]? = some (.label l) ∧
      ms j = m) (h : x.Charted Γ J code ms i) : x.Charted Γ J' code ms i := by
  have hleads : ∀ {l : Label}, code.LeadsTo J ms i l → code.LeadsTo J' ms i l :=
    fun hl => hl.elim (hJ _ _) .inr
  unfold Line.Charted at h ⊢
  cases hkind : x.kind with
  | jmp l =>
    rw [hkind] at h
    exact ⟨hleads h.1, h.2⟩
  | jcc l =>
    rw [hkind] at h
    exact ⟨h.1, hleads h.2⟩
  | plain | label | leave | ret | frame | kernel | verbatim =>
    rw [hkind] at h
    exact h

end

/-- Spots of two pieces of code, one behind the other. -/
def joinSpots (n : Nat) (ms ns : Nat → Spot) (i : Nat) : Spot := if i < n then ms i else ns (i - n)

theorem joinSpots_add (n : Nat) (ms ns : Nat → Spot) (j : Nat) :
    joinSpots n ms ns (n + j) = ns j := by
  unfold joinSpots
  rw [if_neg (by omega), Nat.add_sub_cancel_left]

theorem joinSpots_le {n i : Nat} {ms ns : Nat → Spot} (hn : ms n = ns 0) (hi : i ≤ n) :
    joinSpots n ms ns i = ms i := by
  unfold joinSpots
  split
  · rfl
  · obtain rfl : i = n := by omega
    rw [Nat.sub_self, hn]

theorem Charts.append {Γ : Ground} {J : Label → Spot → Prop} {a b : Code} {m₀ m₁ m₂ : Spot}
    {ms ns : Nat → Spot} (ha : Charts Γ J a ms m₀ m₁) (hb : Charts Γ J b ns m₁ m₂) :
    Charts Γ J (a ++ b) (joinSpots a.length ms ns) m₀ m₂ := by
  have hn : ms a.length = ns 0 := ha.last.trans hb.first.symm
  have hbefore : ∀ {i : Nat}, i ≤ a.length → joinSpots a.length ms ns i = ms i :=
    fun hi => joinSpots_le hn hi
  have hbehind := joinSpots_add a.length ms ns
  refine ⟨(hbefore (Nat.zero_le _)).trans ha.first, ?_, fun i x hx => ?_⟩
  · rw [List.length_append, hbehind, hb.last]
  · rcases Nat.lt_or_ge i a.length with hi | hi
    · rw [List.getElem?_append_left hi] at hx
      obtain ⟨hcharted, hgrasps⟩ := ha.lines i x hx
      rw [hbefore (by omega)]
      refine ⟨?_, hgrasps⟩
      have hlines : ∀ (k : Nat) (y : Line), a[k]? = some y → (a ++ b)[0 + k]? = some y :=
        fun k y hy => by
        rw [Nat.zero_add, List.getElem?_append_left (List.getElem?_eq_some_iff.1 hy).1]
        exact hy
      have hall :=
        hcharted.shift hlines (fun k hk => (congrArg _ (Nat.zero_add k)).trans (hbefore hk)) hx
      rwa [Nat.zero_add] at hall
    · obtain ⟨j, rfl⟩ : ∃ j, i = a.length + j := ⟨i - a.length, by omega⟩
      rw [List.getElem?_append_right (by omega), Nat.add_sub_cancel_left] at hx
      obtain ⟨hcharted, hgrasps⟩ := hb.lines j x hx
      rw [hbehind]
      refine ⟨hcharted.shift (fun k y hy => ?_) (fun k _ => hbehind k) hx, hgrasps⟩
      rw [List.getElem?_append_right (by omega), Nat.add_sub_cancel_left]
      exact hy

/-! ### Events -/

/-- The lines begin with the code of an expression that is compiled from a state. -/
def Node.Begins (e : Node) (s : State) (code : Code) : Prop :=
  ∃ v t, e.evaluate s = .ok v t ∧ v.code <+: code

/-- The state and the line at which control comes to an event. -/
def Event.spot? : Event → Option (State × Nat)
  | statement _ s => some (s, 0)
  | expression _ s ahead => some (s, ahead)
  | _ => none

/-- The lines begin with the code of the event, if it is an expression. -/
def Event.Begins : Event → Code → Prop
  | expression e s _, code => e.Begins s code
  | _, _ => True

theorem Event.Begins.append {ev : Event} {code : Code} (h : ev.Begins code) (more : Code) :
    ev.Begins (code ++ more) := by
  cases ev with
  | expression e s ahead =>
    obtain ⟨v, t, hv, hcode⟩ := h
    exact ⟨v, t, hv, hcode.trans (List.prefix_append _ _)⟩
  | statement | finish | spent => trivial

/-- The event stands in code that is written to a section from line `base` on, at the spot of its
scope. -/
def Event.Stands (x : Section) (base : Nat) (code : Code) (ms : Nat → Spot) (ev : Event) : Prop :=
  ∀ u ahead, ev.spot? = some (u, ahead) → u.target = x → ∃ n, n ≤ code.length ∧
    (u.listing.lines x).length + ahead = base + n ∧ ms n = .within u.current ∧
    ev.Begins (code.drop n)

/-! ### Pieces -/

/-- Code that is written to a section from line `base` on has a chart from one spot to another.  The
events and the labels of the two lists stand in it. -/
def Piece (Γ : Ground) (J : Label → Spot → Prop) (x : Section) (base : Nat) (m : Spot) (code : Code)
    (m' : Spot) (events : List Event) (labels : List (Label × Spot)) : Prop :=
  ∃ ms, Charts Γ J code ms m m' ∧ (∀ ev ∈ events, ev.Stands x base code ms) ∧
    ∀ l p, (l, p) ∈ labels → ∃ j : Nat, code[j]? = some (.label l) ∧ ms j = p

namespace Piece

variable {Γ : Ground} {J J' : Label → Spot → Prop} {x : Section} {base : Nat} {m m' m₀ m₁ m₂ : Spot}
  {a b code : Code} {es es' : List Event} {ls ls' : List (Label × Spot)}

theorem append (ha : Piece Γ J x base m₀ a m₁ es ls)
    (hb : Piece Γ J x (base + a.length) m₁ b m₂ es' ls') :
    Piece Γ J x base m₀ (a ++ b) m₂ (es ++ es') (ls ++ ls') := by
  obtain ⟨ms, hms, hes, hls⟩ := ha
  obtain ⟨ns, hns, hes', hls'⟩ := hb
  have hn : ms a.length = ns 0 := hms.last.trans hns.first.symm
  refine ⟨_, hms.append hns, fun ev hev u ahead hspot htarget => ?_, fun l p hp => ?_⟩
  · rcases List.mem_append.1 hev with hev | hev
    · obtain ⟨n, hle, hline, hat, hbegins⟩ := hes ev hev u ahead hspot htarget
      refine ⟨n, by rw [List.length_append]; omega, hline, (joinSpots_le hn hle).trans hat, ?_⟩
      rw [List.drop_append_of_le_length hle]
      exact hbegins.append b
    · obtain ⟨n, hle, hline, hat, hbegins⟩ := hes' ev hev u ahead hspot htarget
      refine ⟨a.length + n, by rw [List.length_append]; omega, by omega,
        (joinSpots_add ..).trans hat, ?_⟩
      rwa [List.drop_append, List.drop_eq_nil_of_le (Nat.le_add_right _ _), List.nil_append,
        Nat.add_sub_cancel_left]
  · rcases List.mem_append.1 hp with hp | hp
    · obtain ⟨j, hj, hat⟩ := hls l p hp
      have hlt := (List.getElem?_eq_some_iff.1 hj).1
      exact ⟨j, (List.getElem?_append_left hlt).trans hj, (joinSpots_le hn (by omega)).trans hat⟩
    · obtain ⟨j, hj, hat⟩ := hls' l p hp
      refine ⟨a.length + j, ?_, (joinSpots_add ..).trans hat⟩
      rwa [List.getElem?_append_right (by omega), Nat.add_sub_cancel_left]

/-- Labels that stand in the code need not be pending any more. -/
theorem close (h : Piece Γ J x base m code m' es ls) (hJ : ∀ l p, J l p → J' l p ∨ (l, p) ∈ ls) :
    Piece Γ J' x base m code m' es ls := by
  obtain ⟨ms, hms, hes, hls⟩ := h
  refine ⟨ms, ⟨hms.first, hms.last, fun i y hy => ?_⟩, hes, hls⟩
  obtain ⟨hcharted, hgrasps⟩ := hms.lines i y hy
  exact ⟨hcharted.close fun l p hl => (hJ l p hl).imp id (hls l p), hgrasps⟩

/-- Fewer events and labels may be told of. -/
theorem restrict (h : Piece Γ J x base m code m' es ls)
    (hes : ∀ ev ∈ es', ev.spot? ≠ none → ev ∈ es)
    (hls : ∀ lp ∈ ls', lp ∈ ls) : Piece Γ J x base m code m' es' ls' := by
  obtain ⟨ms, hms, hes', hls'⟩ := h
  refine ⟨ms, hms, fun ev hev u ahead hspot => ?_, fun l p hp => hls' l p (hls _ hp)⟩
  exact hes' ev (hes ev hev (by rw [hspot]; nofun)) u ahead hspot

/-- What control comes to at the beginning of the code. -/
theorem here {ev : Event} {u : State} {ahead : Nat}
    (h : Piece Γ J x base (.within u.current) code m' es ls)
    (hspot : ev.spot? = some (u, ahead)) (hline : (u.listing.lines x).length + ahead = base)
    (hbegins : ev.Begins code) : Piece Γ J x base (.within u.current) code m' (ev :: es) ls := by
  obtain ⟨ms, hms, hes, hls⟩ := h
  refine ⟨ms, hms, fun ev' hev u' ahead' hspot' htarget => ?_, hls⟩
  rcases List.mem_cons.1 hev with rfl | hev
  · cases hspot.symm.trans hspot'
    exact ⟨0, Nat.zero_le _, hline, hms.first, hbegins⟩
  · exact hes ev' hev u' ahead' hspot' htarget

theorem nil (m : Spot) : Piece Γ J x base m [] m [] [] :=
  ⟨fun _ => m, ⟨rfl, rfl, fun _ _ hx => nomatch hx⟩, fun _ hev => (nomatch hev), fun _ _ hp =>
    nomatch hp⟩

/-- A piece about whose lines nothing else is told. -/
theorem of_charts (ms : Nat → Spot) (h : Charts Γ J code ms m m') :
    Piece Γ J x base m code m' [] [] :=
  ⟨ms, h, fun _ hev => (nomatch hev), fun _ _ hp => nomatch hp⟩

end Piece

/-! ### Operands of frames -/

theorem Mem.base_of_slot {base : Reg} {x : Slot} (h : Mem.slot base x = .ok a) : a.base = base := by
  unfold Mem.slot at h
  cases hd : x.disp with
  | error e =>
    rw [hd] at h
    cases h
  | ok d =>
    rw [hd] at h
    cases h
    rfl

/-- What `esi` is known to point to behind a chase. -/
def chased (d : Nat) : Option Nat := if d = 0 then none else some d

/-- The operands of a line are slots of one frame, if they are relative to any. -/
def Line.Reaches (x : Line) (base : Reg) (slots : List Slot) : Prop :=
  ∀ a ∈ x.mems, a.base = ebp ∨ a.base = esi →
    ∃ s ∈ slots, ∃ a', Mem.slot base s = .ok a' ∧ a = if x.isLea then a'.address else a'

/-- A plain line that reaches slots of one frame and lets `esi` point where it does. -/
structure Line.Touches (x : Line) (base : Reg) (slots : List Slot) : Prop where
  plain : x.kind = .plain
  esi : x.writesEsi = false
  reaches : x.Reaches base slots

section

variable {Γ : Ground} {m : Spot} {x : Line} {o : Option ScopeId} {d : Nat} {i : ScopeId}
  {base : Reg} {slots : List Slot}

theorem Line.Reaches.of_slot {s : Slot} (hmems : ∀ b ∈ x.mems, b = a) (hlea : x.isLea = false)
    (ha : Mem.slot base s = .ok a) (hs : s ∈ slots) : x.Reaches base slots := by
  intro b hb _
  obtain rfl := hmems b hb
  exact ⟨s, hs, b, ha, by rw [hlea]; rfl⟩

theorem Line.Touches.ne_call (h : x.Touches base slots) (entry : Label) : x ≠ Asm.call entry := by
  rintro rfl
  cases h.esi

/-- Behind a chase the register points to the frame of the scope at that depth. -/
theorem Line.Touches.grasps (hx : x.Touches (Convention.chase d).2 (Γ.slots i))
    (hd : (Γ.tree.enclosing o)[d]? = some i) : x.Grasps Γ ⟨o, chased d⟩ := by
  intro a ha hbase
  obtain ⟨s, hs, a', hslot, heq⟩ := hx.reaches a ha hbase
  have hbase' : a.base = (Convention.chase d).2 := by
    rw [← Mem.base_of_slot hslot, heq]
    split <;> rfl
  have hpoints : Spot.Points Γ ⟨o, chased d⟩ (Convention.chase d).2 i := by
    cases d with
    | zero => exact .inl ⟨rfl, hd⟩
    | succ d => exact .inr ⟨rfl, d + 1, rfl, hd⟩
  exact .inl ⟨i, s, a', hbase' ▸ hpoints, hs, hbase' ▸ hslot, heq⟩

theorem Line.grasps_of_off (h : ∀ a ∈ x.mems, ¬(a.base = ebp ∨ a.base = esi)) : x.Grasps Γ m :=
  fun a ha hbase => absurd hbase (h a ha)

theorem Line.grasps_of_nil (h : x.mems = []) : x.Grasps Γ m :=
  Line.grasps_of_off fun a ha => by
    rw [h] at ha
    cases ha

end

theorem Line.shift_of_not_writesEsi {x : Line} (h : x.writesEsi = false) (d : Option Nat) :
    x.shift d = d := by
  unfold Line.shift
  rw [if_neg, if_neg, h]
  · rfl
  · rintro rfl
    cases h
  · rintro rfl
    cases h

namespace Line.Touches

variable {base r : Reg} {slots : List Slot} {s : Slot} {a : Mem} {x : Line}

theorem load (hr : r ≠ Reg.esi) (ha : Mem.slot base s = .ok a) (hs : s ∈ slots) :
    (Asm.load r a).Touches base slots := by
  unfold Asm.load
  split
  · refine ⟨rfl, ?_, .of_slot (fun b hb => List.mem_singleton.1 hb) rfl ha hs⟩
    cases r <;> first | rfl | exact absurd rfl hr
  · refine ⟨by cases r <;> rfl, ?_, .of_slot (fun b hb => List.mem_singleton.1 hb) rfl ha hs⟩
    cases r <;> first | rfl | exact absurd rfl hr

theorem store (ha : Mem.slot base s = .ok a) (hs : s ∈ slots) :
    (Asm.store a r).Touches base slots := by
  unfold Asm.store
  split <;> exact ⟨rfl, rfl, .of_slot (fun b hb => List.mem_singleton.1 hb) rfl ha hs⟩

theorem lea (hr : r ≠ Reg.esi) (ha : Mem.slot base s = .ok a) (hs : s ∈ slots) :
    (Asm.lea r a).Touches base slots := by
  refine ⟨rfl, ?_, fun b hb _ => ⟨s, hs, a, ha, List.mem_singleton.1 hb⟩⟩
  cases r <;> first | rfl | exact absurd rfl hr

theorem off (hkind : x.kind = .plain) (hesi : x.writesEsi = false) (hmems : x.mems = []) :
    x.Touches base slots := by
  refine ⟨hkind, hesi, fun a ha => ?_⟩
  rw [hmems] at ha
  cases ha

end Line.Touches

/-! ### Lines at one spot -/

/-- Whether a line leaves frames and control alone and is relative to no frame. -/
def Line.isSteady (x : Line) : Bool :=
  (match x.kind with
    | .plain => true
    | _ => false) &&
  (match x with
    | .instr (.call _) => false
    | _ => true) &&
  x.mems.all fun a => a.base != ebp && a.base != esi

/-- A line of a piece of code with the same spot in front of it and behind it. -/
inductive Line.Keeps (Γ : Ground) (J : Label → Spot → Prop) (m : Spot) (code : Code) (i : Nat)
    (x : Line) : Prop
  | plain : x.kind = .plain → (∀ entry, x ≠ Asm.call entry) → m.side = none ∨ x.writesEsi = false →
    x.Grasps Γ m → Keeps Γ J m code i x
  | branch {c l} : x = jcc c l → J l m ∨ .label l ∈ code → Keeps Γ J m code i x
  | jump {l} : x = jmp l → J l m ∨ .label l ∈ code → Keeps Γ J m code i x
  | label {l} : x = .label l → Keeps Γ J m code i x
  | kernel {y} : x = kernel → 0 < i → code[i - 1]? = some y → y.isBusy = true → Keeps Γ J m code i x
  | verbatim {text} : x = .verbatim text → m = .outside → Keeps Γ J m code i x

section

variable {Γ : Ground} {J : Label → Spot → Prop} {m : Spot} {code : Code} {i : Nat} {x : Line}

theorem Line.isSteady_iff : x.isSteady = true ↔
    x.kind = .plain ∧ (∀ entry, x ≠ Asm.call entry) ∧ ∀ a ∈ x.mems,
    ¬(a.base = ebp ∨ a.base = esi) := by
  have hcall : (match x with | .instr (.call _) => false | _ => true) = true ↔ ∀ entry,
      x ≠ Asm.call entry := by
    split
    · exact ⟨nofun, fun h => absurd rfl (h _)⟩
    · rename_i hne
      exact ⟨fun _ entry heq => hne entry heq, fun _ => rfl⟩
  have hkind : (match x.kind with | .plain => true | _ => false) = true ↔ x.kind = .plain := by
    split
    · rename_i h
      simp [h]
    · rename_i h
      exact ⟨nofun, fun heq => absurd heq h⟩
  unfold Line.isSteady
  rw [Bool.and_eq_true, Bool.and_eq_true, hcall, hkind, List.all_eq_true, and_assoc]
  simp [not_or]

theorem Line.Keeps.steady (h : x.isSteady = true) (hm : m.side = none ∨ x.writesEsi = false) :
    x.Keeps Γ J m code i := by
  obtain ⟨hkind, hcall, hmems⟩ := Line.isSteady_iff.1 h
  exact .plain hkind hcall hm (Line.grasps_of_off hmems)

theorem Line.Touches.keeps {o : Option ScopeId} {d : Nat} {k : ScopeId}
    (hx : x.Touches (Convention.chase d).2 (Γ.slots k)) (hd : (Γ.tree.enclosing o)[d]? = some k) :
    x.Keeps Γ J ⟨o, chased d⟩ code i := .plain hx.plain hx.ne_call (.inr hx.esi) (hx.grasps hd)

theorem Line.Keeps.charted (h : x.Keeps Γ J m code i) :
    x.Charted Γ J code (fun _ => m) i ∧ x.Grasps Γ m := by
  have hleads : ∀ {l : Label}, J l m ∨ .label l ∈ code → code.LeadsTo J (fun _ => m) i l :=
    fun hl =>
    hl.imp id fun hmem =>
      have ⟨j, hj⟩ := List.mem_iff_getElem?.1 hmem
      ⟨j, hj, rfl⟩
  cases h with
  | plain hkind hcall hesi hgrasps =>
    refine ⟨?_, hgrasps⟩
    unfold Line.Charted
    rw [hkind]
    refine ⟨rfl, fun d hd => ?_, fun entry h => absurd h (hcall entry)⟩
    rcases hesi with hnone | hesi
    · rw [hnone] at hd
      cases hd
    · rw [Line.shift_of_not_writesEsi hesi]
      exact hd
  | branch hx hl =>
    subst hx
    exact ⟨⟨rfl, hleads hl⟩, Line.grasps_of_nil rfl⟩
  | jump hx hl =>
    subst hx
    exact ⟨⟨hleads hl, .inl rfl⟩, Line.grasps_of_nil rfl⟩
  | label hx =>
    subst hx
    exact ⟨rfl, Line.grasps_of_nil rfl⟩
  | kernel hx hpos hy hbusy =>
    subst hx
    exact ⟨.inl ⟨rfl, hpos, _, hy, hbusy⟩, Line.grasps_of_nil rfl⟩
  | verbatim hx hm =>
    subst hx
    exact ⟨⟨hm, hm⟩, Line.grasps_of_nil rfl⟩

end

namespace Piece

variable {Γ : Ground} {J : Label → Spot → Prop} {x : Section} {base : Nat} {m m' : Spot}
  {code : Code} {y : Line} {i k : ScopeId} {d : Nat} {o : Option ScopeId}

/-- All lines are at one spot. -/
theorem keeps (h : ∀ (i : Nat) (y : Line), code[i]? = some y → y.Keeps Γ J m code i) :
    Piece Γ J x base m code m [] [] :=
  .of_charts (fun _ => m) ⟨rfl, rfl, fun i y hy => (h i y hy).charted⟩

theorem steady (h : code.all Line.isSteady = true) (hm : m.side = none) :
    Piece Γ J x base m code m [] [] :=
  keeps fun _ _ hy => .steady (List.all_eq_true.1 h _ (List.mem_of_getElem? hy)) (.inl hm)

theorem note (h : Code.IsNote code) : Piece Γ J x base m code m [] [] := by
  rcases h with rfl | ⟨text, rfl⟩
  · exact nil m
  · exact keeps fun i y hy => by
      rw [List.mem_singleton.1 (List.mem_of_getElem? hy)]
      exact .steady rfl (.inr rfl)

theorem label (l : Label) (m : Spot) : Piece Γ J x base m [.label l] m [] [(l, m)] := by
  have hchart : Charts Γ J [.label l] (fun _ => m) m m := by
    refine ⟨rfl, rfl, fun i y hy => ?_⟩
    rw [List.mem_singleton.1 (List.mem_of_getElem? hy)]
    exact (Line.Keeps.label rfl).charted
  refine ⟨_, hchart, fun _ hev => (nomatch hev), fun l' p hp => ⟨0, ?_, ?_⟩⟩
  · cases List.mem_singleton.1 hp
    rfl
  · cases List.mem_singleton.1 hp
    rfl

theorem branch {c : Cond} {l : Label} (hl : J l m) : Piece Γ J x base m [jcc c l] m [] [] :=
  keeps fun i y hy => by
    rw [List.mem_singleton.1 (List.mem_of_getElem? hy)]
    exact .branch rfl (.inl hl)

/-- A single line, behind which another spot is known. -/
theorem single (h : y.Charted Γ J [y] (fun i => if i = 0 then m else m') 0)
    (hgrasps : y.Grasps Γ m) : Piece Γ J x base m [y] m' [] [] := by
  refine .of_charts (fun i => if i = 0 then m else m') ⟨rfl, rfl, fun i z hz => ?_⟩
  cases i with
  | zero =>
    cases hz
    exact ⟨h, hgrasps⟩
  | succ i => cases hz

/-- A plain line, behind which less may be known. -/
theorem line (hkind : y.kind = .plain) (hcall : ∀ entry, y ≠ Asm.call entry)
    (hscope : m'.scope = m.scope)
    (hside : ∀ d, m'.side = some d → y.shift m.side = some d) (hgrasps : y.Grasps Γ m) :
    Piece Γ J x base m [y] m' [] [] := by
  refine single ?_ hgrasps
  unfold Line.Charted
  rw [hkind]
  exact ⟨hscope, hside, fun entry h => absurd h (hcall entry)⟩

/-- Behind a jump anything of the same text may follow. -/
theorem jump {l : Label} (hl : J l m) (hhome : Γ.tree.home m'.scope = Γ.tree.home m.scope) :
    Piece Γ J x base m [jmp l] m' [] [] :=
  single ⟨.inl hl, .inl hhome⟩ (Line.grasps_of_nil rfl)

theorem leave (hk : k < Γ.tree.size) (hfunction : (Γ.tree.scope k).function = none) :
    Piece Γ J x base (.within k) Convention.blockEpilogue ⟨(Γ.tree.scope k).parent, none⟩ [] [] :=
  single ⟨k, hk, rfl, hfunction, rfl⟩ (Line.grasps_of_nil rfl)

theorem enter (hk : k < Γ.tree.size) (hfunction : (Γ.tree.scope k).function = none) :
    Piece Γ J x base ⟨(Γ.tree.scope k).parent, none⟩
      (Convention.blockPrologue (Γ.tree.scope k).frameSize) (.within k) [] [] := by
  refine .of_charts (fun i => if i < 2 then ⟨(Γ.tree.scope k).parent, none⟩ else .within k)
    ⟨rfl, rfl, fun i y hy => ?_⟩
  match i with
  | 0 | 2 | 3 | 4 | 5 | 6 =>
    cases hy
    exact ⟨⟨rfl, nofun, nofun⟩, Line.grasps_of_nil rfl⟩
  | 1 =>
    cases hy
    exact ⟨⟨Nat.one_pos, k, .inl ⟨hk, rfl, rfl, rfl, hfunction, rfl⟩⟩, Line.grasps_of_nil rfl⟩
  | _ + 7 => cases hy

theorem exit :
    Piece Γ J x base .outside [mov eax (.imm Convention.sysExit), xor ebx ebx, kernel]
    .outside [] [] := by
  refine .of_charts (fun _ => .outside) ⟨rfl, rfl, fun i y hy => ?_⟩
  match i with
  | 0 | 1 =>
    cases hy
    exact (Line.Keeps.steady rfl (.inl rfl)).charted
  | 2 =>
    cases hy
    exact ⟨.inr ⟨⟨Nat.le_refl 2, rfl, rfl, rfl⟩, rfl, rfl⟩, Line.grasps_of_nil rfl⟩
  | _ + 3 => cases hy

/-! ### Chases -/

theorem links (o : Option ScopeId) (j n : Nat) :
    Piece Γ J x base ⟨o, some j⟩ (List.replicate n (mov esi (Mem.dword esi 0)))
    ⟨o, some (j + n)⟩ [] [] := by
  induction n generalizing j base with
  | zero => exact nil _
  | succ n ih =>
    have hfirst :
        Piece Γ J x base ⟨o, some j⟩ [mov esi (Mem.dword esi 0)] ⟨o, some (j + 1)⟩ [] [] :=
      line rfl nofun rfl (fun _ hd => hd) fun a _ _ => .inr (.inl rfl)
    rw [show j + (n + 1) = j + 1 + n by omega]
    exact hfirst.append (ih (j + 1))

theorem chase (o : Option ScopeId) (d : Nat) :
    Piece Γ J x base ⟨o, none⟩ (Convention.chase d).1 ⟨o, chased d⟩ [] [] := by
  cases d with
  | zero => exact nil _
  | succ d =>
    have hfirst : Piece Γ J x base ⟨o, none⟩ [mov esi ebp] ⟨o, some 0⟩ [] [] :=
      line rfl nofun rfl (fun d hd => hd) (Line.grasps_of_nil rfl)
    have hall := hfirst.append (links o 0 (d + 1))
    rw [Nat.zero_add] at hall
    exact hall

/-- What is known of `esi` may be forgotten behind a line. -/
theorem forget (hcode : code ≠ []) (hd : (Γ.tree.enclosing o)[d]? = some i)
    (h : ∀ y ∈ code, y.Touches (Convention.chase d).2 (Γ.slots i)) :
    Piece Γ J x base ⟨o, chased d⟩ code ⟨o, none⟩ [] [] := by
  induction code generalizing base with
  | nil => exact absurd rfl hcode
  | cons y code ih =>
    have hy := h y List.mem_cons_self
    cases code with
    | nil => exact line hy.plain hy.ne_call rfl nofun (hy.grasps hd)
    | cons z code =>
      have hfirst : Piece Γ J x base ⟨o, chased d⟩ [y] ⟨o, chased d⟩ [] [] := keeps fun i w hw => by
        rw [List.mem_singleton.1 (List.mem_of_getElem? hw)]
        exact hy.keeps hd
      exact hfirst.append (ih nofun fun w hw => h w (List.mem_cons_of_mem _ hw))

/-- Lines that reach slots of a frame behind a chase. -/
theorem reach (hd : (Γ.tree.enclosing o)[d]? = some i) (hcode : code ≠ [])
    (h : ∀ y ∈ code, y.Touches (Convention.chase d).2 (Γ.slots i)) :
    Piece Γ J x base ⟨o, none⟩ ((Convention.chase d).1 ++ code) ⟨o, none⟩ [] [] :=
  (chase o d).append (forget hcode hd h)

/-- Lines that reach slots of the frame at hand. -/
theorem own (hi : (Γ.tree.enclosing (some i))[0]? = some i)
    (h : ∀ y ∈ code, y.Touches ebp (Γ.slots i)) :
    Piece Γ J x base (.within i) code (.within i) [] [] :=
  keeps fun _ y hy => (h y (List.mem_of_getElem? hy)).keeps (d := 0) hi

/-- A release of what two slots of a frame describe. -/
theorem release {p : Staged} {z : Mem} {skip : Label} (hd : (Γ.tree.enclosing o)[d]? = some i)
    (hp : ∀ s ∈ p.slots, s ∈ Γ.slots i) (ha : Mem.slot (Convention.chase d).2 p.address = .ok a)
    (hz : Mem.slot (Convention.chase d).2 p.size = .ok z) :
    Piece Γ J x base ⟨o, chased d⟩ (releaseCode a z skip ++ [.label skip]) ⟨o, chased d⟩ [] [] := by
  have hslot : ∀ {y : Line} {s : Slot} {b : Mem}, y.kind = .plain → y.writesEsi = false →
      y.isLea = false → y.mems = [b] → Mem.slot (Convention.chase d).2 s = .ok b → s ∈ p.slots →
      ∀ n, y.Keeps Γ J ⟨o, chased d⟩ (releaseCode a z skip ++ [.label skip]) n :=
    fun hkind hesi hlea hmems hb hs n =>
      Line.Touches.keeps ⟨hkind, hesi, .of_slot (fun c hc => List.mem_singleton.1 (hmems ▸ hc)) hlea
        hb (hp _ hs)⟩ hd
  have hlabel : .label skip ∈ releaseCode a z skip ++ [.label skip] :=
    List.mem_append_right _ (List.mem_singleton_self _)
  refine keeps fun n y hy => ?_
  match n with
  | 0 =>
    cases hy
    exact hslot rfl rfl rfl rfl hz (List.mem_cons_of_mem _ List.mem_cons_self) 0
  | 1 | 4 =>
    cases hy
    exact .steady rfl (.inr rfl)
  | 2 =>
    cases hy
    exact .branch rfl (.inr hlabel)
  | 3 =>
    cases hy
    exact hslot rfl rfl rfl rfl ha List.mem_cons_self 3
  | 5 =>
    cases hy
    exact .kernel rfl (Nat.succ_pos 4) rfl rfl
  | 6 =>
    cases hy
    exact .label rfl
  | _ + 7 => cases hy

/-! ### Calls -/

theorem arguments (hi : (Γ.tree.enclosing (some i))[0]? = some i) {slots : List Slot}
    (hslots : ∀ s ∈ slots, s ∈ Γ.slots i ∧ s.size = Convention.argBytes)
    (h : Convention.pushArguments slots = .ok code) :
    Piece Γ J x base (.within i) code (.within i) [] [] := by
  induction slots generalizing base code with
  | nil =>
    cases h
    exact nil _
  | cons s slots ih =>
    obtain ⟨pushes, a, hpushes, ha, rfl⟩ := Convention.pushArguments_cons_eq_ok.1 h
    obtain ⟨hs, hsize⟩ := hslots s List.mem_cons_self
    rw [← hsize] at ha
    refine (ih (fun t ht => hslots t (List.mem_cons_of_mem _ ht)) hpushes).append
      (own hi fun y hy => ?_)
    rw [List.mem_singleton.1 hy]
    exact ⟨rfl, rfl, .of_slot (fun b hb => List.mem_singleton.1 hb) rfl ha hs⟩

/-- A call hands over the frame of the scope that declares the function. -/
theorem call {slots : List Slot} {f : Signature} (hi : (Γ.tree.enclosing (some i))[0]? = some i)
    (hslots : ∀ s ∈ slots, s ∈ Γ.slots i ∧ s.size = Convention.argBytes)
    (hd : (Γ.tree.enclosing (some i))[d]? = some k) (hf : f ∈ (Γ.tree.scope k).functions)
    (h : Convention.call slots d f.entry = .ok code) :
    Piece Γ J x base (.within i) code (.within i) [] [] := by
  obtain ⟨pushes, bytes, hpushes, -, rfl⟩ := Convention.call_eq_ok h
  have hbase : (Convention.chase d).2 = ebp ∧ d = 0 ∨ (Convention.chase d).2 = esi ∧
      chased d = some d := by
    unfold Convention.chase chased
    split
    · exact .inl ⟨rfl, by assumption⟩
    · exact .inr ⟨rfl, rfl⟩
  have hcalled :
      ∀ base, Piece Γ J x base ⟨some i, chased d⟩ [push (Convention.chase d).2, Asm.call f.entry,
        add esp (.imm bytes)] (.within i) [] [] := by
    intro base
    refine .of_charts (fun n => if n < 2 then ⟨some i, chased d⟩ else .within i)
      ⟨rfl, rfl, fun n y hy => ?_⟩
    match n with
    | 0 =>
      cases hy
      exact ⟨⟨rfl, fun e he => he, nofun⟩, Line.grasps_of_nil rfl⟩
    | 1 =>
      cases hy
      refine ⟨⟨rfl, nofun, fun entry heq => ?_⟩, Line.grasps_of_nil rfl⟩
      cases heq
      exact ⟨d, _, k, f, Nat.one_pos, rfl, hbase, hd, hf, rfl, rfl⟩
    | 2 =>
      cases hy
      exact ⟨⟨rfl, nofun, nofun⟩, Line.grasps_of_nil rfl⟩
    | _ + 3 => cases hy
  exact ((arguments hi hslots hpushes).append (chase (some i) d)).append (hcalled _)

end Piece

end KuAsm
