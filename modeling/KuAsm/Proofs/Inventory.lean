import KuAsm.Proofs.Growth
import KuAsm.Proofs.Symbol

/-!
# The labels of a compilation

Every label that is made has to be defined once, and only labels that were made may be referred to.
Between making a label and defining it, somebody owes the definition: the code of an expression that
is not written yet, or a construct that is still open.  This module keeps the account.

* `State.Inventory s first made owed`: the labels made since the counter stood at `first` are
  `made`; each is defined in the listing or owed, and nothing else is defined, referred to or
  remembered.
-/

namespace KuAsm

variable {m : FunctionExit} {made owed : List Label} {l : Location} {first i : Nat}
  {session : Session} {s t : State} {name text : String}

/-! ### Accounts -/

/-- The labels that a scope remembers: of its frame, of its functions, and of its exits. -/
def Scope.labels (sc : Scope) : List Label :=
  sc.frameSize :: ((sc.functions.flatMap fun f => [f.entry, f.returnLabel])
    ++ (sc.function.map (·.returnLabel)).toList
    ++ sc.loop.toList.flatMap fun m => [m.top, m.next, m.exit])

/-- The labels that a listing defines. -/
def Listing.defines (l : Listing) : List Label :=
  Code.defines l.data ++ Code.defines l.functions ++ Code.defines l.program

/-- The labels that a listing refers to. -/
def Listing.refers (l : Listing) : List Label :=
  Code.refers l.data ++ Code.refers l.functions ++ Code.refers l.program

/-- The labels made since the counter stood at `first` are `made`, in this order.  Each of them is
defined once or owed once. -/
structure State.Inventory (s : State) (first : Nat) (made owed : List Label) : Prop where
  formed : s.Formed
  next : s.session.nextLabel = first + made.length
  numbered : ∀ (i : Nat) (l : Label), made[i]? = some l → ∃ hint, l = .fresh (first + i) hint
  defined : (s.listing.defines ++ owed).Perm made
  referred : s.listing.refers ⊆ made
  named : ∀ sc ∈ s.tree.scopes, sc.labels ⊆ made
  placed : ∀ x ∈ s.listing.literals, x.2 ∈ made

namespace State.Inventory

variable {s : State} {first : Nat} {made owed : List Label}

/-- In what order definitions are owed does not matter. -/
theorem perm (h : s.Inventory first made owed) {rest : List Label} (hp : owed.Perm rest) :
    s.Inventory first made rest :=
  { h with defined := (hp.symm.append_left _).trans h.defined }

theorem here_labels (h : s.Inventory first made owed) : s.here.labels ⊆ made :=
  h.named _ h.formed.here_mem

/-- A change of the session that makes no label. -/
theorem withSession (h : s.Inventory first made owed)
    (hnext : session.nextLabel = s.session.nextLabel) :
    State.Inventory { s with session } first made owed :=
  { h with
    formed := ⟨h.formed.ordered, h.formed.current_lt, h.formed.root_eq⟩
    next := hnext.trans h.next }

/-- A change of the current scope that leaves it in its place. -/
theorem withScope (h : s.Inventory first made owed) {sc : Scope} (hp : sc.parent = s.here.parent)
    (hsc : sc.labels ⊆ made) : (s.withScope sc).Inventory first made owed :=
  { h with
    formed := h.formed.withScope hp
    named := fun k hk => by
      rcases List.mem_or_eq_of_mem_set hk with hk | rfl
      · exact h.named k hk
      · exact hsc }

/-- A new label is owed. -/
theorem mint (h : s.Inventory first made owed) (hint : String)
    (hnext : session.nextLabel = s.session.nextLabel + 1) :
    State.Inventory { s with session } first (made ++ [.fresh s.session.nextLabel hint])
      (.fresh s.session.nextLabel hint :: owed) where
  formed := ⟨h.formed.ordered, h.formed.current_lt, h.formed.root_eq⟩
  next := by
    rw [hnext, h.next, List.length_append, List.length_singleton, Nat.add_assoc]
  numbered := by
    intro i l hl
    rcases Nat.lt_trichotomy i made.length with hi | rfl | hi
    · rw [List.getElem?_append_left hi] at hl
      exact h.numbered i l hl
    · rw [List.getElem?_concat_length, h.next] at hl
      cases hl
      exact ⟨hint, rfl⟩
    · rw [List.getElem?_eq_none] at hl
      · cases hl
      · rw [List.length_append, List.length_singleton]
        exact hi
  defined := by
    refine List.perm_middle.trans ?_
    refine (List.Perm.cons _ h.defined).trans ?_
    exact (List.perm_append_singleton _ _).symm
  referred := List.subset_append_of_subset_left _ h.referred
  named sc hsc := List.subset_append_of_subset_left _ (h.named sc hsc)
  placed x hx := List.mem_append_left _ (h.placed x hx)

end State.Inventory

theorem Listing.defines_append (l : Listing) (x : Section) (code : Code) :
    (l.append x code).defines.Perm (l.defines ++ Code.defines code) := by
  unfold Listing.append Listing.defines
  rw [List.perm_iff_count]
  intro k
  cases x <;> simp only [Code.defines_append, List.count_append] <;> omega

theorem Listing.refers_append_subset {l : Listing} {code : Code} (hl : l.refers ⊆ made)
    (hcode : Code.refers code ⊆ made) (x : Section) : (l.append x code).refers ⊆ made := by
  unfold Listing.refers at hl
  unfold Listing.append Listing.refers
  simp only [List.append_subset] at hl
  cases x <;> simp only [Code.refers_append, List.append_subset] <;> simp_all

/-- Writing code settles what it defines. -/
theorem State.Inventory.wrote {code : Code} (h : s.Inventory first made (Code.defines code ++ owed))
    (hcode : Code.refers code ⊆ made) : (s.wrote code).Inventory first made owed where
  formed := h.formed.wrote code
  next := h.next
  numbered := h.numbered
  defined := by
    refine ((Listing.defines_append ..).append_right _).trans ?_
    rw [List.append_assoc]
    exact h.defined
  referred := Listing.refers_append_subset h.referred hcode _
  named := h.named
  placed := by
    intro x hx
    refine h.placed x ?_
    unfold State.wrote Listing.append at hx
    cases htarget : s.target <;> simpa [htarget] using hx

/-- A literal that was placed before is one of the labels made. -/
theorem State.Inventory.literal_mem (h : s.Inventory first made owed) {l : Label}
    (hl : s.listing.literal? text = some l) : l ∈ made := by
  obtain ⟨x, hfind, rfl⟩ := Option.map_eq_some_iff.1 hl
  exact h.placed x (List.mem_of_find?_eq_some hfind)

/-- A literal that is new is made and defined at once. -/
theorem State.Inventory.pool (h : s.Inventory first made owed) (text : String)
    (hnext : session.nextLabel = s.session.nextLabel + 1) :
    let l : Label := .fresh s.session.nextLabel "str"
    State.Inventory
      { s with
        listing :=
          { s.listing with
            data := s.listing.data ++ [.bytes l text.toUTF8.toList]
            literals := s.listing.literals ++ [(text, l)] }
        session } first (made ++ [l]) owed := by
  intro l
  have hmint := h.mint "str" hnext
  have hf := hmint.formed
  refine
    { hmint with
      formed := ⟨hf.ordered, hf.current_lt, hf.root_eq⟩
      defined := ?_, referred := ?_, placed := ?_ }
  · refine List.Perm.trans ?_ hmint.defined
    rw [List.perm_iff_count]
    intro k
    simp only [Listing.defines, Code.defines_append, Code.defines_cons, Code.defines_nil,
      Line.defines, List.append_nil, List.count_append, List.count_cons, List.count_nil, l]
    omega
  · have hdata := hmint.referred
    unfold Listing.refers at hdata ⊢
    simpa [Line.refers] using hdata
  · intro x hx
    rcases List.mem_append.1 hx with hx | hx
    · exact hmint.placed x hx
    · obtain rfl := List.mem_singleton.1 hx
      exact List.mem_append_right _ (List.mem_singleton_self _)

/-- Entering a new scope owes the size of its frame. -/
theorem State.Inventory.entered (h : s.Inventory first made owed) :
    (s.entered (.fresh s.session.nextLabel "frame")).Inventory first
      (made ++ [.fresh s.session.nextLabel "frame"])
      (.fresh s.session.nextLabel "frame" :: owed) := by
  have hnext : (s.session.mintLabel "frame").2.recordScope.nextLabel = s.session.nextLabel + 1 :=
    rfl
  have hmint := h.mint "frame" hnext
  refine { hmint with formed := (State.Inner.entered h.formed _).formed, named := ?_ }
  intro sc hsc
  rcases List.mem_append.1 hsc with hsc | hsc
  · exact hmint.named sc hsc
  · obtain rfl := List.mem_singleton.1 hsc
    intro l hl
    obtain rfl : l = .fresh s.session.nextLabel "frame" := by
      simpa [Scope.labels, Scope.fresh] using hl
    exact List.mem_append_right _ (List.mem_singleton_self _)

/-! ### Names -/

namespace State.Inventory

variable {s : State} {first : Nat} {made owed : List Label} (h : s.Inventory first made owed)
include h

/-- Functions have labels that were made. -/
theorem function_labels (hi : i < s.tree.size) {f : Signature}
    (hf : (s.tree.scope i).getFunction? name = some f) : f.entry ∈ made ∧ f.returnLabel ∈ made := by
  have hmem : f ∈ (s.tree.scope i).functions := List.mem_of_find?_eq_some hf
  have hsub := h.named _ (s.tree.scope_mem hi)
  constructor <;> refine hsub ?_ <;> simp only [Scope.labels, List.mem_cons, List.mem_append,
    List.mem_flatMap] <;> exact .inr (.inl (.inl ⟨f, hmem, by simp⟩))

/-- Loops have labels that were made. -/
theorem loop_labels (hi : i < s.tree.size) {m : LoopExit} (hm : (s.tree.scope i).loop = some m) :
    m.next ∈ made ∧ m.exit ∈ made := by
  have hsub := h.named _ (s.tree.scope_mem hi)
  constructor <;> refine hsub ?_ <;> simp [Scope.labels, hm]

/-- The end of a function has a label that was made. -/
theorem exit_label (hi : i < s.tree.size) (hm : (s.tree.scope i).function = some m) :
    m.returnLabel ∈ made := by
  refine h.named _ (s.tree.scope_mem hi) ?_
  simp [Scope.labels, hm]

/-- What lies on the path of the current scope is a scope. -/
theorem lt_of_path {k j : Nat} (hj : (s.tree.path s.current)[k]? = some j) : j < s.tree.size :=
  h.formed.ordered.lt_size_of_mem_path h.formed.current_lt (List.mem_of_getElem? hj)

/-- Where work goes on does not matter. -/
theorem moved {current : ScopeId} (hlt : current < s.tree.size) (target : Section) :
    State.Inventory { s with current, target } first made owed :=
  { h with formed := ⟨h.formed.ordered, hlt, h.formed.root_eq⟩ }

end State.Inventory

end KuAsm
