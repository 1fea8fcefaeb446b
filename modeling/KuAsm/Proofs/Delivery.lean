import KuAsm.Proofs.Inventory
import KuAsm.Proofs.Pool
import KuAsm.Proofs.Tally

/-!
# Code that is made but not written

The code of an expression is written some time after it was made, and until then somebody holds it.
Labels that it defines are owed, what it shows was counted already, and the strings that it loads
were asked for.  This module keeps one account of all of that: holding code means owing what it
defines, being allowed what it refers to, and being ahead by what it shows.

Code is held in parcels, so that one piece can be put together from several.  Whatever else is held
is not touched.

## Main definitions

* `State.Account s q B may held`: the books are right if the parcels `held` are not written yet, and
  the labels `may` can be referred to.
* `Parcel.Gathers q may ps p`: the parcel `p` can be made of the parcels `ps`.
* `Lower.Delivers x q may ps code`: whoever holds the parcels `ps` and runs `x` holds those of its
  result instead.

## Main statements

* `Node.evaluate_delivers`: compiling an expression delivers its code.
-/

namespace KuAsm

open Asm Reg Lower

/-! ### Parcels -/

/-- Code that is not written yet, and the strings that it loads. -/
structure Parcel where
  code : Code
  texts : List String

namespace Parcel

/-- All parcels in one.  The newest one comes first in the list, and last in the code. -/
def join : List Parcel → Parcel
  | [] => ⟨[], []⟩
  | p :: ps => ⟨(join ps).code ++ p.code, (join ps).texts ++ p.texts⟩

variable (ps qs : List Parcel)

theorem code_join_append : (join (ps ++ qs)).code = (join qs).code ++ (join ps).code := by
  induction ps with
  | nil => exact (List.append_nil _).symm
  | cons p ps ih => rw [List.cons_append, join, join, ih, List.append_assoc]

theorem texts_join_append : (join (ps ++ qs)).texts = (join qs).texts ++ (join ps).texts := by
  induction ps with
  | nil => exact (List.append_nil _).symm
  | cons p ps ih => rw [List.cons_append, join, join, ih, List.append_assoc]

/-- No parcel begins in the middle of a call of the system. -/
def Open : Prop := ∀ p ∈ ps, p.code.head? ≠ some kernel

variable {ps qs}

theorem Open.join (h : Open ps) (q : Feature) :
    (join ps).code.Shows q (q.count (Parcel.join ps).code) := by
  refine ⟨?_, rfl⟩
  induction ps with
  | nil => exact nofun
  | cons p ps ih =>
    obtain ⟨hp, hps⟩ := List.forall_mem_cons.1 h
    exact Code.opens_append (ih hps) hp

theorem Open.split (h : Open (ps ++ qs)) : Open ps ∧ Open qs := List.forall_mem_append.1 h

/-- In which order parcels are joined matters neither for labels nor for what is shown. -/
theorem join_perm (h : ps.Perm qs) :
    (Code.defines (join ps).code).Perm (Code.defines (join qs).code) ∧
    Code.refers (join ps).code ⊆ Code.refers (join qs).code ∧
      (Open ps → ∀ q : Feature, q.count (join ps).code = q.count (join qs).code) := by
  induction h with
  | nil => exact ⟨.refl _, fun _ => id, fun _ _ => rfl⟩
  | cons p _ ih =>
    obtain ⟨hdefines, hrefers, hcount⟩ := ih
    simp only [join, Code.defines_append, Code.refers_append]
    refine ⟨hdefines.append_right _, by grind, fun hopen q => ?_⟩
    obtain ⟨hp, hps⟩ := List.forall_mem_cons.1 hopen
    rw [Feature.count_append hp, Feature.count_append hp, hcount hps]
  | swap p p' ps =>
    simp only [join, Code.defines_append, Code.refers_append]
    refine ⟨List.perm_iff_count.2 fun l => by simp only [List.count_append]; omega, by grind,
      fun hopen q => ?_⟩
    obtain ⟨hp, hopen⟩ := List.forall_mem_cons.1 hopen
    obtain ⟨hp', -⟩ := List.forall_mem_cons.1 hopen
    rw [Feature.count_append hp, Feature.count_append hp', Feature.count_append hp',
      Feature.count_append hp]
    omega
  | trans hab _ ih ih' =>
    refine ⟨ih.1.trans ih'.1, List.Subset.trans ih.2.1 ih'.2.1, fun hopen q => ?_⟩
    rw [ih.2.2 hopen, ih'.2.2 fun p hp => hopen p (hab.mem_iff.2 hp)]

/-- Every parcel loads the labels of its strings. -/
theorem known_join {R : Label → String → Prop}
    (h : ∀ p ∈ ps, List.Forall₂ R (Code.loads p.code) p.texts) :
    List.Forall₂ R (Code.loads (join ps).code) (join ps).texts := by
  induction ps with
  | nil => exact .nil
  | cons p ps ih =>
    obtain ⟨hp, hps⟩ := List.forall_mem_cons.1 h
    rw [join, Code.loads_append]
    exact List.rel_append (ih hps) hp

/-- The definition of a label. -/
def label (l : Label) : Parcel := ⟨[.label l], []⟩

/-- The definition of the size of a frame. -/
def frame (l : Label) : Parcel := ⟨[.constant l 0], []⟩

end Parcel

variable {q : Feature} {may : List Label} {held ps qs : List Parcel} {p : Parcel} {s t : State}
  {code d : Code} {us vs : List String}

/-- The parcel can be made of some others: it has their definitions, their strings and what they
show, and refers to nothing else than they do, but for labels that are allowed. -/
structure Parcel.Gathers (q : Feature) (may : List Label) (ps : List Parcel) (p : Parcel) :
    Prop where
  defines : (Code.defines p.code).Perm (Code.defines (join ps).code)
  refers : Code.refers p.code ⊆ may ++ Code.refers (join ps).code
  loads : Code.loads p.code = Code.loads (join ps).code
  texts : p.texts = (join ps).texts
  shows : Open ps → p.code.Shows q (q.count (join ps).code)

namespace Parcel.Gathers

theorem one (p : Parcel) : Gathers q may [p] p where
  defines := .refl _
  refers := List.subset_append_right _ _
  loads := rfl
  texts := rfl
  shows h := ⟨h p (List.mem_singleton_self p), rfl⟩

/-- Code that shows nothing and has no label of its own needs no parcels. -/
theorem silent (hshows : code.Shows q 0) (hdefines : Code.defines code = [])
    (hrefers : Code.refers code ⊆ may)
    (hloads : Code.loads code = []) : Gathers q may [] ⟨code, []⟩ where
  defines := .of_eq hdefines
  refers := List.subset_append_of_subset_left _ hrefers
  loads := hloads
  texts := rfl
  shows _ := hshows

/-- Dull code needs no parcels. -/
theorem dull (h : code.IsDull q) : Gathers q may [] ⟨code, []⟩ :=
  silent h.shows h.defines (h.refers ▸ List.nil_subset _) h.loads

theorem append {p' : Parcel} (h : Gathers q may ps p) (h' : Gathers q may qs p') :
    Gathers q may (qs ++ ps) ⟨p.code ++ p'.code, p.texts ++ p'.texts⟩ where
  defines := by
    rw [code_join_append, Code.defines_append, Code.defines_append]
    exact h.defines.append h'.defines
  refers := by
    rw [code_join_append, Code.refers_append, Code.refers_append]
    have hp := h.refers
    have hp' := h'.refers
    grind
  loads := by rw [code_join_append, Code.loads_append, Code.loads_append, h.loads, h'.loads]
  texts := by rw [texts_join_append, ← h.texts, ← h'.texts]
  shows hopen := by
    obtain ⟨hqs, hps⟩ := Open.split hopen
    rw [code_join_append, Feature.count_append (hqs.join q).opens]
    exact ((h.shows hps).append (h'.shows hqs)).eq (Int.natCast_add ..).symm

/-- Code that loads no string may follow. -/
theorem behind (h : Gathers q may ps ⟨code, us⟩) (h' : Gathers q may qs ⟨d, []⟩) :
    Gathers q may (qs ++ ps) ⟨code ++ d, us⟩ := by
  have hall := h.append h'
  rwa [List.append_nil] at hall

/-- Dull code that is held may give way to other dull code. -/
theorem instead (h : code.IsDull q) (hd : d.IsDull q) : Gathers q may [⟨code, []⟩] ⟨d, []⟩ where
  defines := by rw [hd.defines]; exact .of_eq h.defines.symm
  refers := by rw [hd.refers]; exact List.nil_subset _
  loads := hd.loads.trans h.loads.symm
  texts := rfl
  shows _ := hd.shows.eq h.shows.count_eq.symm

/-- The size of a frame gets its value when nothing more is reserved in the frame. -/
theorem sized (l : Label) (bytes : Nat) : Gathers q may [.frame l] ⟨[.constant l bytes], []⟩ where
  defines := .refl _
  refers := List.nil_subset _
  loads := rfl
  texts := rfl
  shows _ := (Code.Shows.constant l bytes).eq (Code.Shows.constant l 0).count_eq.symm

/-- The prologue of a function does for its frame what the prologue of a block does. -/
theorem prologue (l : Label) :
    Gathers q may [⟨Convention.blockPrologue l, []⟩] ⟨Convention.functionPrologue l, []⟩ where
  defines := .refl _
  refers := List.subset_append_right _ _
  loads := rfl
  texts := rfl
  shows _ := (Code.Shows.functionPrologue l).eq (Code.Shows.blockPrologue l).count_eq.symm

/-- Ordinary lines that define the labels of some parcels. -/
theorem lines (hordinary : code.all Line.isOrdinary = true)
    (hps : (join ps).code.all Line.isOrdinary = true)
    (hdefines : (Code.defines code).Perm (Code.defines (join ps).code))
    (hrefers : Code.refers code ⊆ may)
    (hloads : Code.loads code = Code.loads (join ps).code) (htexts : us = (join ps).texts) :
    Gathers q may ps ⟨code, us⟩ where
  defines := hdefines
  refers := List.subset_append_of_subset_left _ hrefers
  loads := hloads
  texts := htexts
  shows _ := (Code.Shows.ordinary hordinary).eq (Code.Shows.ordinary hps).count_eq.symm

/-- Ordinary lines may refer to a label that is allowed. -/
theorem toward {l : Label} (hl : l ∈ may) (hordinary : code.all Line.isOrdinary = true)
    (hdefines : Code.defines code = []) (hrefers : Code.refers code = [l])
    (hloads : Code.loads code = []) : Gathers q may [] ⟨code, []⟩ :=
  silent (.ordinary hordinary) hdefines
    (hrefers ▸ List.cons_subset.2 ⟨hl, List.nil_subset _⟩) hloads

/-- A jump to a label that is allowed may stand before a definition. -/
theorem past {l : Label} (hl : l ∈ may) (next : Label) :
    Gathers q may [.label next] ⟨[jmp l, .label next], []⟩ :=
  lines rfl rfl (.refl _) (List.cons_subset.2 ⟨hl, List.nil_subset _⟩) rfl rfl

end Parcel.Gathers

/-! ### Accounts -/

/-- What an account refers to. -/
structure Books where
  /-- By how much the count was ahead at the beginning. -/
  base : Int
  /-- The number of the first label that is followed, if labels and strings are followed at all. -/
  first : Option Nat
  /-- The section that is written to. -/
  place : Section
  /-- The files that were included. -/
  files : List String
  /-- The strings that were asked for and are loaded by what is written. -/
  demands : Demands

/-- What is asked for is entered in the books. -/
def Books.after (B : Books) (d : Draft) : Books :=
  { B with files := (d B.files).2, demands := B.demands ++ (d B.files).1 }

theorem Books.after_nothing (B : Books) : B.after .nothing = B := by
  unfold after Draft.nothing
  rw [List.append_nil]

theorem Books.after_andThen (B : Books) (d e : Draft) :
    (B.after d).after e = B.after (d.andThen e) := by
  unfold after Draft.andThen
  rw [List.append_assoc]

/-- The books are right if the parcels `held` are not written yet, and the labels `may` can be
referred to. -/
structure State.Account (s : State) (q : Feature) (B : Books) (may : List Label)
    (held : List Parcel) : Prop where
  formed : s.Formed
  target : s.target = B.place
  writes : ∀ first ∈ B.first, B.place ≠ .data
  included : s.session.included = B.files
  opens : Parcel.Open held
  ahead : s.ahead q = B.base + q.count (Parcel.join held).code
  labels : ∀ first ∈ B.first, ∃ made,
    s.Inventory first made (Code.defines (Parcel.join held).code) ∧ may ⊆ made ∧
    Code.refers (Parcel.join held).code ⊆ made
  supplied : ∀ first ∈ B.first, s.listing.Supplied B.demands (Parcel.join held).texts ∧
    ∀ p ∈ held, List.Forall₂ s.listing.Names (Code.loads p.code) p.texts

variable {B : Books}

namespace State.Account

/-- Parcels are put together. -/
theorem gather (ps : List Parcel) (h : s.Account q B may (ps ++ held))
    (hp : Parcel.Gathers q may ps p) : s.Account q B may (p :: held) := by
  obtain ⟨hps, hheld⟩ := h.opens.split
  have hshows := hp.shows hps
  refine { h with
    opens := List.forall_mem_cons.2 ⟨hshows.opens, hheld⟩
    ahead := ?_
    labels := fun first hfirst => ?_
    supplied := fun first hfirst => ?_ }
  · have hahead := h.ahead
    have hcount := hshows.count_eq
    rw [Parcel.code_join_append, Feature.count_append (hps.join q).opens] at hahead
    rw [hahead, Parcel.join, Feature.count_append hshows.opens]
    omega
  · obtain ⟨made, hmade, hmay, hrefers⟩ := h.labels first hfirst
    have hp' := hp.refers
    rw [Parcel.code_join_append] at hmade hrefers
    rw [Code.defines_append] at hmade
    rw [Code.refers_append, List.append_subset] at hrefers
    refine ⟨made, hmade.perm ?_, hmay, ?_⟩
    · rw [Parcel.join, Code.defines_append]
      exact (hp.defines.append_left _).symm
    · rw [Parcel.join, Code.refers_append]
      exact List.append_subset.2
        ⟨hrefers.1, List.Subset.trans hp' (List.append_subset.2 ⟨hmay, hrefers.2⟩)⟩
  · obtain ⟨hsupplied, hknown⟩ := h.supplied first hfirst
    obtain ⟨hknown, hrest⟩ := List.forall_mem_append.1 hknown
    rw [Parcel.texts_join_append, ← hp.texts] at hsupplied
    refine ⟨hsupplied, List.forall_mem_cons.2 ⟨?_, hrest⟩⟩
    rw [hp.loads, hp.texts]
    exact Parcel.known_join hknown

/-- Parcels may be held in any order that leaves the strings in theirs. -/
theorem perm {held' : List Parcel} (h : s.Account q B may held) (hp : held.Perm held')
    (htexts : (Parcel.join held').texts = (Parcel.join held).texts) : s.Account q B may held' := by
  obtain ⟨hdefines, -, hcount⟩ := Parcel.join_perm hp
  refine { h with
    opens := fun p hp' => h.opens p (hp.mem_iff.2 hp')
    ahead := hcount h.opens q ▸ h.ahead
    labels := fun first hfirst => ?_
    supplied := fun first hfirst => ?_ }
  · obtain ⟨made, hmade, hmay, hrefers⟩ := h.labels first hfirst
    exact ⟨made, hmade.perm hdefines, hmay,
      List.Subset.trans (Parcel.join_perm hp.symm).2.1 hrefers⟩
  · obtain ⟨hsupplied, hknown⟩ := h.supplied first hfirst
    exact ⟨htexts ▸ hsupplied, fun p hp' => hknown p (hp.mem_iff.2 hp')⟩

/-- A parcel may be brought to the front of others that load no string. -/
theorem front (ps : List Parcel) (h : s.Account q B may (ps ++ p :: held))
    (hps : (Parcel.join ps).texts = []) : s.Account q B may (p :: (ps ++ held)) := by
  refine h.perm List.perm_middle ?_
  rw [Parcel.join, Parcel.texts_join_append, Parcel.texts_join_append, Parcel.join, hps,
    List.append_nil, List.append_nil]

/-- Fewer labels are allowed. -/
theorem forget {more : List Label} (h : s.Account q B more held) (hsub : may ⊆ more) :
    s.Account q B may held :=
  { h with
    labels := fun first hfirst =>
      let ⟨made, hmade, hmore, hrefers⟩ := h.labels first hfirst
      ⟨made, hmade, List.Subset.trans hsub hmore, hrefers⟩ }

/-- A label that was made is allowed. -/
theorem allow {l : Label} (h : s.Account q B may held)
    (hl : ∀ first made owed, s.Inventory first made owed → l ∈ made) :
    s.Account q B (l :: may) held :=
  { h with
    labels := fun first hfirst =>
      let ⟨made, hmade, hmay, hrefers⟩ := h.labels first hfirst
      ⟨made, hmade, List.cons_subset.2 ⟨hl _ _ _ hmade, hmay⟩, hrefers⟩ }

end State.Account

/-! ### Actions that do not matter -/

/-- Nothing is different that is counted, written or followed. -/
structure State.Still (s t : State) : Prop where
  formed : t.Formed
  listing : t.listing = s.listing
  target : t.target = s.target
  next : t.session.nextLabel = s.session.nextLabel
  counted : ∀ q : Feature, q.counted t.session = q.counted s.session
  included : t.session.included = s.session.included
  named : ∀ sc ∈ t.tree.scopes, ∃ sc' ∈ s.tree.scopes, sc.labels ⊆ sc'.labels

namespace State

theorem Still.refl (hs : s.Formed) : s.Still s :=
  ⟨hs, rfl, rfl, rfl, fun _ => rfl, rfl, fun sc hsc => ⟨sc, hsc, fun _ => id⟩⟩

theorem Still.trans {u : State} (h : s.Still t) (k : t.Still u) : s.Still u where
  formed := k.formed
  listing := k.listing.trans h.listing
  target := k.target.trans h.target
  next := k.next.trans h.next
  counted q := (k.counted q).trans (h.counted q)
  included := k.included.trans h.included
  named sc hsc := by
    obtain ⟨sc₁, hsc₁, hsub₁⟩ := k.named sc hsc
    obtain ⟨sc₂, hsc₂, hsub₂⟩ := h.named sc₁ hsc₁
    exact ⟨sc₂, hsc₂, List.Subset.trans hsub₁ hsub₂⟩

/-- A change of the current scope that leaves it in its place. -/
theorem Still.withScope (hs : s.Formed) {sc : Scope} (hp : sc.parent = s.here.parent)
    (hsc : sc.labels ⊆ s.here.labels) : s.Still (s.withScope sc) where
  formed := hs.withScope hp
  listing := rfl
  target := rfl
  next := rfl
  counted _ := rfl
  included := rfl
  named k hk := by
    rcases List.mem_or_eq_of_mem_set hk with hk | rfl
    · exact ⟨k, hk, fun _ => id⟩
    · exact ⟨_, hs.here_mem, hsc⟩

theorem Account.still (h : s.Account q B may held) (k : s.Still t) : t.Account q B may held where
  formed := k.formed
  target := k.target.trans h.target
  writes := h.writes
  included := k.included.trans h.included
  opens := h.opens
  ahead := by
    unfold State.ahead
    rw [k.listing, k.counted]
    exact h.ahead
  labels first hfirst := by
    obtain ⟨made, hmade, hallowed⟩ := h.labels first hfirst
    refine ⟨made, ⟨k.formed, k.next.trans hmade.next, hmade.numbered, ?_, ?_, fun sc hsc => ?_, ?_⟩,
      hallowed⟩
    · exact k.listing ▸ hmade.defined
    · exact k.listing ▸ hmade.referred
    · obtain ⟨sc', hsc', hsub⟩ := k.named sc hsc
      exact List.Subset.trans hsub (hmade.named sc' hsc')
    · exact k.listing ▸ hmade.placed
  supplied first hfirst := by
    rw [k.listing]
    exact h.supplied first hfirst

end State

/-- If the action ends well, nothing is different that matters, and its result satisfies `P`. -/
def Lower.Idles {α : Type} (x : Lower α) (P : α → Prop) : Prop :=
  ∀ ⦃s : State⦄ ⦃a : α⦄ ⦃t : State⦄, s.Formed → x s = .ok a t → s.Still t ∧ P a

variable {α β : Type} {x y : Lower α} {f : α → Lower β} {T : String → Prop} {name : String}
  {l : Location}

namespace Lower.Idles

variable {P : α → Prop} {Q : β → Prop}

theorem bind (hx : x.Idles P) (hf : ∀ a, P a → (f a).Idles Q) : (x >>= f).Idles Q := by
  intro s b t hs h
  obtain ⟨a, u, hxa, hfa⟩ := bind_eq_ok.1 h
  obtain ⟨hu, ha⟩ := hx hs hxa
  obtain ⟨ht, hb⟩ := hf a ha hu.formed hfa
  exact ⟨hu.trans ht, hb⟩

theorem pure {a : α} (h : P a) : (Pure.pure a : Lower α).Idles P := by
  intro s b t hs hb
  obtain ⟨rfl, rfl⟩ := pure_eq_ok.1 hb
  exact ⟨.refl hs, h⟩

theorem read {g : State → Lower β} (hg : ∀ s, (g s).Idles Q) :
    ((get : Lower State) >>= g).Idles Q :=
  fun s _ _ hs h => hg s hs (get_bind_eq_ok.1 h)

theorem reject (c : Cause) (l : Location) : (Lower.reject c l : Lower α).Idles P :=
  fun _ _ _ _ h => (reject_eq_ok.1 h).elim

theorem ite {c : Prop} [Decidable c] (hx : x.Idles P) (hy : y.Idles P) :
    (if c then x else y).Idles P := by
  split
  · exact hx
  · exact hy

theorem checked (z : Except Fault α) : (Lower.checked z).Idles fun a => z = .ok a := by
  intro s a t hs h
  obtain ⟨ha, rfl⟩ := checked_eq_ok.1 h
  exact ⟨.refl hs, ha⟩

theorem mapM {g : α → Lower β} {R : α → β → Prop} (hg : ∀ a, (g a).Idles (R a)) :
    ∀ as : List α, (as.mapM g : Lower (List β)).Idles fun _ => True
  | [] => pure trivial
  | a :: as => by
    rw [List.mapM_cons]
    exact bind (hg a) fun _ _ => bind (mapM hg as) fun _ _ => pure trivial

theorem withSession {g : Session → α × Session}
    (hg : ∀ s, (g s).2.nextLabel = s.nextLabel ∧ (∀ q : Feature, q.counted (g s).2 = q.counted s) ∧
      (g s).2.included = s.included) :
    (Lower.withSession g).Idles fun _ => True := by
  intro s a t hs h
  obtain ⟨-, rfl⟩ := withSession_eq_ok.1 h
  obtain ⟨hnext, hcounted, hincluded⟩ := hg s.session
  exact ⟨⟨⟨hs.ordered, hs.current_lt, hs.root_eq⟩, rfl, rfl, hnext, hcounted, hincluded,
    (State.Still.refl hs).named⟩, trivial⟩

theorem mintReclaim : Lower.mintReclaim.Idles fun _ => True :=
  withSession fun _ => ⟨rfl, fun q => by cases q <;> rfl, rfl⟩

theorem tell (n : Notice) : (Lower.tell n).Idles fun _ => True :=
  withSession fun s => ⟨rfl, fun _ => Feature.counted_tell s n, rfl⟩

/-- A comment is dull. -/
theorem remark {text : String} (h : q.Accepts text) : (Lower.remark text).Idles (Code.IsDull q) :=
  read fun s => pure (Code.IsDull.note h s.comments)

theorem setScope {g : Scope → Scope} (hp : ∀ sc, (g sc).parent = sc.parent)
    (hg : ∀ sc, (g sc).labels = sc.labels) :
    (Lower.scope >>= fun sc => Lower.setScope (g sc)).Idles fun _ => True := by
  intro s a t hs h
  obtain ⟨sc, u, hsc, hset⟩ := bind_eq_ok.1 h
  obtain ⟨rfl, rfl⟩ := scope_eq_ok.1 hsc
  obtain rfl := setScope_eq_ok.1 hset
  exact ⟨.withScope hs (hp _) (by rw [hg]; exact fun _ => id), trivial⟩

theorem reserve (size : Nat) : (Lower.reserve size).Idles fun _ => True := by
  intro s a t hs h
  obtain ⟨-, -, rfl⟩ := reserve_eq_ok.1 h
  exact ⟨.withScope hs rfl fun _ => id, trivial⟩

theorem declareVariable (name : String) (ty : ScalarType) (l : Location) :
    (Lower.declareVariable name ty l).Idles fun _ => True := by
  intro s a t hs h
  obtain ⟨sc, hsc, rfl⟩ := declareVariable_eq_ok.1 h
  obtain ⟨-, -, used, -, rfl⟩ := Scope.declareVariable_eq_ok hsc
  exact ⟨.withScope hs rfl fun _ => id, trivial⟩

theorem own (name : String) (id : ReclaimId) : (Lower.own name id).Idles fun _ => True :=
  setScope (fun _ => rfl) fun _ => rfl

theorem resolveVariable (name : String) (l : Location) :
    (Lower.resolveVariable name l).Idles fun _ => True := by
  intro s x t hs h
  obtain ⟨-, rfl⟩ := resolveVariable_eq_ok.1 h
  exact ⟨.refl hs, trivial⟩

theorem depthToRoot : Lower.depthToRoot.Idles fun _ => True := read fun _ => pure trivial

/-! ### Dull code -/

theorem registerFresh (hr : Remarks q T) : Lower.registerFresh.Idles fun r => r.1.IsDull q := by
  refine bind mintReclaim fun id _ => bind (reserve _) fun address _ => bind (reserve _)
    fun size _ => ?_
  have hset : (Lower.scope >>= fun s =>
      Lower.setScope { s with freeSet := s.freeSet.insert id ⟨address, size⟩ }).Idles
        fun _ => True :=
    setScope (fun _ => rfl) fun _ => rfl
  rw [← bind_assoc]
  exact bind hset fun _ _ => bind (checked _) fun a _ => bind (checked _) fun z _ =>
    bind (remark (hr.owned _))
    fun _ hnote => pure (((Code.IsDull.store a eax).append (.store z edx)).append hnote)

theorem takeOwnership (o : Ownership) (name : String) (l : Location) :
    (Lower.takeOwnership o name l).Idles fun r => r.1.IsDull q := by
  cases o with
  | fresh id =>
    have hset : (Lower.scope >>= fun s =>
        Lower.setScope { s with freeSet := s.freeSet.erase id }).Idles fun _ => True :=
      setScope (fun _ => rfl) fun _ => rfl
    show (Lower.scope >>= fun s => _ >>= fun _ => _).Idles _
    rw [← bind_assoc]
    exact bind hset fun _ _ => bind (tell _) fun _ _ => pure .nil
  | borrowed id => exact bind (tell _) fun _ _ => pure (.plain rfl)
  | plain => exact pure (.plain rfl)

theorem loadSize (base : Reg) (v : Variable) : (Lower.loadSize base v).Idles (Code.IsDull q) := by
  unfold Lower.loadSize
  cases v.sizeCell with
  | none => exact pure .nil
  | some cell => exact bind (checked _) fun c _ => pure (.load edx c)

theorem readVariable (name : String) (l : Location) :
    (Lower.readVariable name l).Idles fun v => v.code.IsDull q :=
  bind (resolveVariable _ _) fun _ _ => bind (checked _) fun m _ => bind (loadSize _ _)
      fun _ hload =>
    pure (((Code.IsDull.chase _).append (.load eax m)).append hload)

theorem addressOf (name : String) (l : Location) :
    (Lower.addressOf name l).Idles fun v => v.code.IsDull q :=
  bind (resolveVariable _ _) fun _ _ => bind (checked _) fun _ _ =>
    pure ((Code.IsDull.chase _).append (.plain rfl))

theorem stepVariable (name : String) (op : StepOp) (fixity : Fixity) (l : Location) :
    (Lower.stepVariable name op fixity l).Idles fun v => v.code.IsDull q := by
  refine bind (resolveVariable _ _) fun x _ => ite (reject _ _) (bind (checked _) fun m _ => ?_)
  have hchange : Code.IsDull q [.instr (.unary op.unary m)] := .plain rfl
  cases fixity with
  | leading => exact pure ((Code.IsDull.chase _).append (hchange.append (.load eax m)))
  | trailing => exact pure ((Code.IsDull.chase _).append (.append (.load eax m) hchange))

theorem resultCode (depth : Nat) (m : FunctionExit) :
    (Lower.resultCode depth m).Idles (Code.IsDull q) :=
  bind (checked _) fun _ _ => ite
    (bind (checked _) fun _ _ => pure ((Code.IsDull.chase depth).append (.plain rfl)))
    (pure ((Code.IsDull.chase depth).append (.plain rfl)))

theorem fetchResult (m : FunctionExit) : (Lower.fetchResult m).Idles (Code.IsDull q) :=
  bind (checked _) fun _ _ => ite (bind (checked _) fun _ _ => pure (.plain rfl))
    (pure (.plain rfl))

theorem bindParams (l : Location) : ∀ (index : Nat) (params : List Param),
    (Lower.bindParams l index params).Idles (Code.IsDull q)
  | _, [] => pure .nil
  | index, p :: rest => by
    have hadopt : (Lower.adopt p).Idles fun _ => True := by
      unfold Lower.adopt
      exact ite (bind mintReclaim fun _ _ => own _ _) (pure trivial)
    have hparam : (Lower.bindParam l index p).Idles (Code.IsDull q) :=
      bind (declareVariable _ _ _) fun _ _ => bind (checked _) fun disp _ => bind (checked _)
          fun m _ =>
        bind hadopt fun _ _ => pure
          (.append (a := [mov eax (Mem.dword ebp disp)]) (.plain rfl) (.store m eax))
    exact bind hparam fun _ hcode => bind (bindParams l (index + 1) rest) fun _ hmore =>
      pure (hcode.append hmore)

theorem paramOperands (params : List Param) : (Lower.paramOperands params).Idles fun _ => True :=
  read fun _ => mapM (fun _ => checked _) _

end Lower.Idles

/-! ### New parcels -/

namespace State.Account

/-- What is counted is held as code that shows it. -/
theorem counted (h : s.Account q B may held) (session : Session) {n : Int}
    (hnext : session.nextLabel = s.session.nextLabel)
    (hincluded : session.included = s.session.included)
    (hcounted : q.counted session = q.counted s.session + n) (hshows : code.Shows q n)
    (hdefines : Code.defines code = []) (hrefers : Code.refers code ⊆ may)
    (hloads : Code.loads code = []) :
    State.Account { s with session } q B may (⟨code, []⟩ :: held) where
  formed := ⟨h.formed.ordered, h.formed.current_lt, h.formed.root_eq⟩
  target := h.target
  writes := h.writes
  included := hincluded.trans h.included
  opens := List.forall_mem_cons.2 ⟨hshows.opens, h.opens⟩
  ahead := by
    have hahead := h.ahead
    have hcount := hshows.count_eq
    unfold State.ahead at hahead ⊢
    rw [Parcel.join, Feature.count_append hshows.opens]
    dsimp only
    omega
  labels first hfirst := by
    obtain ⟨made, hmade, hmay, hheld⟩ := h.labels first hfirst
    refine ⟨made, ?_, hmay, ?_⟩
    · rw [Parcel.join, Code.defines_append, hdefines, List.append_nil]
      exact hmade.withSession hnext
    · rw [Parcel.join, Code.refers_append]
      exact List.append_subset.2 ⟨hheld, List.Subset.trans hrefers hmay⟩
  supplied first hfirst := by
    obtain ⟨hsupplied, hknown⟩ := h.supplied first hfirst
    rw [Parcel.join, List.append_nil]
    exact ⟨hsupplied, List.forall_mem_cons.2 ⟨hloads ▸ .nil, hknown⟩⟩

/-- A new label is held as its definition. -/
theorem mint (h : s.Account q B may held) {hint : String} {l : Label}
    (hrun : Lower.mintLabel hint s = .ok l t) : t.Account q B (l :: may) (.label l :: held) := by
  obtain ⟨rfl, rfl⟩ := mintLabel_eq_ok.1 hrun
  have hshows : Code.Shows q [.label (.fresh s.session.nextLabel hint)] 0 := .ordinary rfl
  refine
    { target := h.target, writes := h.writes, included := h.included
      formed := ⟨h.formed.ordered, h.formed.current_lt, h.formed.root_eq⟩
      opens := List.forall_mem_cons.2 ⟨nofun, h.opens⟩
      ahead := ?_
      labels := fun first hfirst => ?_
      supplied := fun first hfirst => ?_ }
  · have hahead := h.ahead
    have hcount := hshows.count_eq
    unfold State.ahead at hahead ⊢
    rw [Parcel.join, Parcel.label, Feature.count_append hshows.opens, Feature.counted_mintLabel]
    dsimp only
    omega
  · obtain ⟨made, hmade, hmay, hheld⟩ := h.labels first hfirst
    refine ⟨_, (hmade.mint hint rfl).perm ?_, ?_, ?_⟩
    · rw [Parcel.join, Parcel.label, Code.defines_append]
      exact (List.perm_append_singleton _ _).symm
    · exact List.cons_subset.2 ⟨List.mem_append_right _ (List.mem_singleton_self _),
        List.subset_append_of_subset_left _ hmay⟩
    · rw [Parcel.join, Parcel.label, Code.refers_append]
      exact List.append_subset.2 ⟨List.subset_append_of_subset_left _ hheld, List.nil_subset _⟩
  · obtain ⟨hsupplied, hknown⟩ := h.supplied first hfirst
    rw [Parcel.join, Parcel.label, List.append_nil]
    exact ⟨hsupplied, List.forall_mem_cons.2 ⟨.nil, hknown⟩⟩

/-- A string that is asked for is held as a load of its label. -/
theorem placed (h : s.Account q B may held) {text : String} {l : Label}
    (hrun : Lower.place text s = .ok l t) : t.Account q B may (⟨[mov eax l], [text]⟩ :: held) := by
  have hshows : Code.Shows q [mov eax l] 0 := .ordinary rfl
  obtain ⟨rfl, rfl⟩ := place_eq_ok.1 hrun
  refine
    { target := h.target, writes := h.writes
      formed := ⟨h.formed.ordered, h.formed.current_lt, h.formed.root_eq⟩
      included := ?_
      opens := List.forall_mem_cons.2 ⟨hshows.opens, h.opens⟩
      ahead := ?_
      labels := fun first hfirst => ?_
      supplied := fun first hfirst => ?_ }
  · rw [← h.included]
    unfold Listing.place
    split <;> rfl
  · have hahead := h.ahead
    have hcount := hshows.count_eq
    rw [Parcel.join, Feature.count_append hshows.opens]
    unfold State.ahead at hahead ⊢
    unfold Listing.place at hcount ⊢
    split at hcount
    · dsimp only at hcount ⊢
      omega
    · have hline : Code.Shows q [.bytes (s.session.mintLabel "str").1 text.toUTF8.toList] 0 :=
        .ordinary rfl
      have hdata := Feature.count_append (q := q) hline.opens s.listing.data
      have hzero := hline.count_eq
      unfold Listing.count at hahead ⊢
      dsimp only at hcount ⊢
      rw [hdata, Feature.counted_tell, Feature.counted_mintLabel]
      omega
  · obtain ⟨made, hmade, hmay, hheld⟩ := h.labels first hfirst
    rw [Parcel.join, Code.defines_append, Code.refers_append]
    cases hold : s.listing.literal? text with
    | some l =>
      rw [show s.listing.place s.session text =
        (l, s.listing, s.session) by rw [Listing.place, hold]]
      refine ⟨made, ?_, hmay, List.append_subset.2
        ⟨hheld, List.cons_subset.2 ⟨hmade.literal_mem hold, List.nil_subset _⟩⟩⟩
      exact hmade.perm (.of_eq (List.append_nil _).symm)
    | none =>
      rw [show s.listing.place s.session text =
        (_, _, (s.session.mintLabel "str").2.tell
          (.literalPlaced text _)) by rw [Listing.place, hold]]
      refine ⟨_, (hmade.pool text rfl).perm (.of_eq (List.append_nil _).symm),
        List.subset_append_of_subset_left _ hmay,
        List.append_subset.2 ⟨List.subset_append_of_subset_left _ hheld, ?_⟩⟩
      exact List.subset_append_right _ _
  · obtain ⟨hsupplied, hknown⟩ := h.supplied first hfirst
    obtain ⟨ht, hl, hnames⟩ := hsupplied.placed s.session text
    exact ⟨ht, List.forall_mem_cons.2 ⟨.cons hl .nil, fun p hp => (hknown p hp).imp hnames⟩⟩

/-- What is held is written.  Strings that are loaded by it may not come in the way of others. -/
theorem wrote (h : s.Account q B may (⟨code, us⟩ :: held))
    (hus : (Parcel.join held).texts ++ us = us ++ (Parcel.join held).texts) :
    (s.wrote code).Account q (B.after (.load B.place us)) may held := by
  obtain ⟨hcode, hheld⟩ := List.forall_mem_cons.1 h.opens
  refine
    { formed := h.formed.wrote code, target := h.target, writes := h.writes
      included := h.included, opens := hheld
      ahead := ?_
      labels := fun first hfirst => ?_
      supplied := fun first hfirst => ?_ }
  · have hahead := h.ahead
    unfold State.ahead at hahead ⊢
    rw [Parcel.join, Feature.count_append hcode] at hahead
    rw [State.wrote, Listing.count_append hcode]
    dsimp only [Books.after] at hahead ⊢
    omega
  · obtain ⟨made, hmade, hmay, hrefers⟩ := h.labels first hfirst
    rw [Parcel.join, Code.defines_append] at hmade
    rw [Parcel.join, Code.refers_append, List.append_subset] at hrefers
    exact ⟨made, (hmade.perm List.perm_append_comm).wrote hrefers.2, hmay, hrefers.1⟩
  · obtain ⟨hsupplied, hknown⟩ := h.supplied first hfirst
    obtain ⟨hcode, hknown⟩ := List.forall_mem_cons.1 hknown
    refine ⟨h.target ▸ hsupplied.append (h.target ▸ h.writes first hfirst) hcode hus, ?_⟩
    rwa [show (s.wrote code).listing.Names = s.listing.Names from Listing.names_append ..]

theorem wroteMute (h : s.Account q B may (⟨code, []⟩ :: held)) :
    (s.wrote code).Account q B may held := by
  have hwrote := h.wrote (List.append_nil _)
  rwa [show B.after (.load B.place []) = B from B.after_nothing] at hwrote

end State.Account

/-! ### Deliveries -/

/-- Whoever holds the parcels `ps` and runs the action holds those of its result instead. -/
def Lower.Delivers {α : Type} (x : Lower α) (q : Feature) (may : List Label) (ps : List Parcel)
    (code : α → List Parcel) : Prop :=
  ∀ ⦃s : State⦄ ⦃a : α⦄ ⦃t : State⦄ ⦃B : Books⦄ ⦃held : List Parcel⦄,
    s.Account q B may (ps ++ held) → x s = .ok a t → t.Account q B may (code a ++ held)

namespace Lower.Delivers

variable {P : α → Prop} {code : α → List Parcel} {code' : β → List Parcel}

theorem bind (hx : x.Delivers q may ps code) (hf : ∀ a, (f a).Delivers q may (code a) code') :
    (x >>= f).Delivers q may ps code' := by
  intro s b t B held hs h
  obtain ⟨a, u, hxa, hfa⟩ := bind_eq_ok.1 h
  exact hf a (hx hs hxa) hfa

/-- What an action delivers is added to the parcels that are held. -/
theorem adds (hx : x.Delivers q may [] code) (hf : ∀ a, (f a).Delivers q may (code a ++ ps) code') :
    (x >>= f).Delivers q may ps code' := by
  intro s b t B held hs h
  obtain ⟨a, u, hxa, hfa⟩ := bind_eq_ok.1 h
  refine hf a ?_ hfa
  rw [List.append_assoc]
  exact hx hs hxa

/-- Other parcels are not touched. -/
theorem frame (hx : x.Delivers q may ps code) :
    x.Delivers q may (ps ++ qs) fun a => code a ++ qs := by
  intro s a t B held hs h
  rw [List.append_assoc] at hs ⊢
  exact hx hs h

/-- What follows an action that does not matter. -/
theorem after (hx : x.Idles P) (hf : ∀ a, P a → (f a).Delivers q may ps code') :
    (x >>= f).Delivers q may ps code' := by
  intro s b t B held hs h
  obtain ⟨a, u, hxa, hfa⟩ := bind_eq_ok.1 h
  obtain ⟨hu, ha⟩ := hx hs.formed hxa
  exact hf a ha (hs.still hu) hfa

/-- What is held can be put together for the result. -/
theorem pure {a : α} {p : α → Parcel} (h : Parcel.Gathers q may ps (p a)) :
    (Pure.pure a : Lower α).Delivers q may ps fun a => [p a] := by
  intro s b t B held hs hb
  obtain ⟨rfl, rfl⟩ := pure_eq_ok.1 hb
  exact hs.gather _ h

theorem same (code : α → List Parcel) (a : α) :
    (Pure.pure a : Lower α).Delivers q may (code a) code := by
  intro s b t B held hs hb
  obtain ⟨rfl, rfl⟩ := pure_eq_ok.1 hb
  exact hs

/-- Nothing is delivered. -/
theorem still (a : α) : (Pure.pure a : Lower α).Delivers q may [] fun _ => [] :=
  same (fun _ => []) a

theorem reject (c : Cause) (l : Location) : (Lower.reject c l : Lower α).Delivers q may ps code :=
  fun _ _ _ _ _ _ h => (reject_eq_ok.1 h).elim

theorem ite {c : Prop} [Decidable c] (hx : x.Delivers q may ps code)
    (hy : y.Delivers q may ps code) : (if c then x else y).Delivers q may ps code := by
  split
  · exact hx
  · exact hy

theorem read {g : State → Lower β} (hg : ∀ s, (g s).Delivers q may ps code') :
    ((get : Lower State) >>= g).Delivers q may ps code' :=
  fun s _ _ _ _ hs h => hg s hs (get_bind_eq_ok.1 h)

/-- What is held is written. -/
theorem emit {c : Code} (h : Parcel.Gathers q may ps ⟨c, []⟩) :
    (Lower.emit c).Delivers q may ps fun _ => [] := by
  intro s a t B held hs hrun
  obtain rfl := emit_eq_ok.1 hrun
  exact (hs.gather _ h).wroteMute

/-- Parcels may be held in any order that leaves the strings in theirs. -/
theorem perm (hp : ps.Perm qs) (htexts : (Parcel.join qs).texts = (Parcel.join ps).texts)
    (hx : x.Delivers q may qs code) : x.Delivers q may ps code := by
  intro s a t B held hs h
  refine hx (hs.perm (hp.append_right held) ?_) h
  rw [Parcel.texts_join_append, Parcel.texts_join_append, htexts]

/-- Some of what is held can be put together first. -/
theorem convert (qs : List Parcel) (h : Parcel.Gathers q may qs p)
    (hx : x.Delivers q may (p :: ps) code) : x.Delivers q may (qs ++ ps) code := by
  intro s a t B held hs hrun
  rw [List.append_assoc] at hs
  exact hx (hs.gather qs h) hrun

theorem quiet (hx : x.Idles P) : x.Delivers q may [] fun _ => [] :=
  fun _ _ _ _ _ hs h => hs.still (hx hs.formed h).1

/-- Dull code is delivered without doing anything. -/
theorem idle {c : α → Code} (hx : x.Idles fun a => (c a).IsDull q) :
    x.Delivers q may [] fun a => [⟨c a, []⟩] := by
  intro s v t B held hs h
  obtain ⟨ht, hv⟩ := hx hs.formed h
  exact (hs.still ht).gather [] (.dull hv)

theorem mintLabel {hint : String} {g : Label → Lower β}
    (hg : ∀ l, (g l).Delivers q (l :: may) (.label l :: ps) code') :
    (Lower.mintLabel hint >>= g).Delivers q may ps code' := by
  intro s b t B held hs h
  obtain ⟨l, u, hl, hrest⟩ := bind_eq_ok.1 h
  exact (hg l (hs.mint hl) hrest).forget (List.subset_cons_self _ _)

/-- A string is held as a load of its label. -/
theorem place {text : String} {g : Label → Lower β}
    (hg : ∀ l, (g l).Delivers q may (⟨[mov eax l], [text]⟩ :: ps) code') :
    (Lower.place text >>= g).Delivers q may ps code' := by
  intro s b t B held hs h
  obtain ⟨l, u, hl, hrest⟩ := bind_eq_ok.1 h
  exact hg l (hs.placed hl) hrest

/-- What is counted is held as code that shows it. -/
theorem recorded {c : Code} {n : Int} {g : Unit → Lower β} {r : Session → Session}
    (hr : ∀ s, (r s).nextLabel = s.nextLabel ∧ (r s).included = s.included ∧
      q.counted (r s) = q.counted s + n)
    (hshows : c.Shows q n) (hdefines : Code.defines c = []) (hrefers : Code.refers c ⊆ may)
    (hloads : Code.loads c = []) (hg : ∀ a, (g a).Delivers q may (⟨c, []⟩ :: ps) code') :
    (Lower.withSession (fun s => ((), r s)) >>= g).Delivers q may ps code' := by
  intro s b t B held hs h
  obtain ⟨_, u, hrecord, hrest⟩ := bind_eq_ok.1 h
  obtain ⟨-, rfl⟩ := withSession_eq_ok.1 hrecord
  obtain ⟨hnext, hincluded, hcounted⟩ := hr s.session
  exact hg () (hs.counted _ hnext hincluded hcounted hshows hdefines hrefers hloads) hrest

/-- A call is counted before its code is written. -/
theorem recordCall {g : Unit → Lower β} {slots : List Slot} {depth : Nat} {entry : Label}
    {call : Code} (hcall : Convention.call slots depth entry = .ok call) (hentry : entry ∈ may)
    (hg : ∀ a, (g a).Delivers q may (⟨call, []⟩ :: ps) code') :
    (Lower.withSession (fun s => ((), s.recordCall name)) >>= g).Delivers q may ps code' := by
  have hlabels : Code.defines call = [] ∧ Code.refers call = [entry] ∧ Code.loads call = [] := by
    obtain ⟨pushes, bytes, hpushes, -, rfl⟩ := Convention.call_eq_ok hcall
    have hdull : Code.IsDull .label (pushes ++ (Convention.chase depth).1) :=
      (Code.IsDull.pushArguments hpushes).append (.chase depth)
    rw [Code.defines_append, Code.refers_append, Code.loads_append, hdull.defines, hdull.refers,
      hdull.loads]
    exact ⟨rfl, rfl, rfl⟩
  obtain ⟨hdefines, hrefers, hloads⟩ := hlabels
  refine recorded (fun s => ⟨rfl, rfl, Feature.counted_recordCall s name⟩) (.call hcall) hdefines ?_
    hloads hg
  rw [hrefers]
  exact List.cons_subset.2 ⟨hentry, List.nil_subset _⟩

/-- A release is counted before its code is written. -/
theorem recordFree (hq : q ≠ .system) {g : Unit → Lower β}
    (hg : ∀ a, (g a).Delivers q may (⟨[mov eax (.imm Convention.sysUnmap), kernel], []⟩ :: ps)
      code') : (Lower.withSession (fun s => ((), s.recordFree)) >>= g).Delivers q may ps code' := by
  have hshows : Code.Shows q [mov eax (.imm Convention.sysUnmap), kernel] (q.once .free) := by
    cases q <;> first | exact ⟨nofun, rfl⟩ | exact absurd rfl hq
  exact recorded (fun s => ⟨rfl, rfl, Feature.counted_recordFree s⟩) hshows rfl
    (List.nil_subset _) rfl hg

/-- A function that was found may be called. -/
theorem resolveCall {count : Nat} {g : Resolved × Signature → Lower β}
    (hg : ∀ x, x.2.name = name → (g x).Delivers q (x.2.entry :: may) ps code') :
    (Lower.resolveCall name count l >>= g).Delivers q may ps code' := by
  intro s b t B held hs h
  obtain ⟨x, u, hcall, hrest⟩ := bind_eq_ok.1 h
  obtain ⟨⟨r, f⟩, u', hfunction, hchoice⟩ := bind_eq_ok.1 hcall
  obtain ⟨hlookup, rfl⟩ := resolveFunction_eq_ok.1 hfunction
  obtain ⟨hpath, hf⟩ := ScopeTree.lookupFunction_eq_some hlookup
  have hx : x = (r, f) ∧ u = u' := by
    dsimp only at hchoice
    split at hchoice
    · exact (reject_eq_ok.1 hchoice).elim
    · exact pure_eq_ok.1 hchoice
  obtain ⟨rfl, rfl⟩ := hx
  refine (hg _ (Scope.name_of_getFunction? hf) (hs.allow fun _ _ _ hmade => ?_) hrest).forget
    (List.subset_cons_self _ _)
  exact (hmade.function_labels (hmade.lt_of_path hpath) hf).1

/-- A function of the library may be called. -/
theorem libraryFunction? {g : Option Signature → Lower β} (hnone : (g none).Delivers q may ps code')
    (hsome : ∀ f, f.name = name → (g (some f)).Delivers q (f.entry :: may) ps code') :
    (Lower.libraryFunction? name >>= g).Delivers q may ps code' := by
  intro s b t B held hs h
  obtain ⟨f?, u, hfunction, hrest⟩ := bind_eq_ok.1 h
  obtain ⟨hf, rfl⟩ := libraryFunction?_eq_ok.1 hfunction
  cases f? with
  | none => exact hnone hs hrest
  | some f =>
    refine (hsome f (Scope.name_of_getFunction? hf.symm) (hs.allow fun _ _ _ hmade => ?_)
      hrest).forget (List.subset_cons_self _ _)
    refine (hmade.function_labels ?_ hf.symm).1
    rw [hs.formed.root_eq]
    exact Nat.lt_of_le_of_lt (Nat.zero_le _) hs.formed.current_lt

end Lower.Delivers

/-! ### Expressions -/

/-- The parcels of values, given the strings that each of them loads. -/
def Lowered.parcels : List Lowered → List (List String) → List Parcel
  | [], uss => [⟨[], uss.flatten⟩]
  | v :: vs, [] => parcels vs [] ++ [⟨v.code, []⟩]
  | v :: vs, us :: uss => parcels vs uss ++ [⟨v.code, us⟩]

namespace Lower.Delivers

open Parcel.Gathers

theorem stageArguments : ∀ (count : Nat) (args : List Lowered) (uss : List (List String)),
    (Lower.stageArguments count args).Delivers q may (Lowered.parcels args uss)
      fun r => [⟨r.1, uss.flatten⟩]
  | _, [], uss => by
    unfold Lower.stageArguments
    exact pure (one _)
  | 0, a :: rest, uss => by
    unfold Lower.stageArguments
    have hstep (us : List String) (uss : List (List String)) :
        (Lower.stageArguments 0 rest >>= fun r => Pure.pure (a.code ++ r.1, r.2)).Delivers q may
          (Lowered.parcels rest uss ++ [⟨a.code, us⟩]) fun r => [⟨r.1, us ++ uss.flatten⟩] :=
      (stageArguments 0 rest uss).frame.bind fun r => pure ((one _).append (one _))
    cases uss with
    | nil => exact hstep [] []
    | cons us uss => exact hstep us uss
  | count + 1, a :: rest, uss => by
    unfold Lower.stageArguments
    refine after (.reserve _) fun slot _ => after (.checked _) fun m _ => ?_
    have hstep (us : List String) (uss : List (List String)) :
        (Lower.stageArguments count rest >>= fun r =>
          Pure.pure (a.code ++ [mov m eax] ++ r.1, slot :: r.2)).Delivers q may
          (Lowered.parcels rest uss ++ [⟨a.code, us⟩]) fun r => [⟨r.1, us ++ uss.flatten⟩] :=
      (stageArguments count rest uss).frame.bind fun r =>
        pure (((one _).behind (dull (.plain rfl))).append (one _))
    cases uss with
    | nil => exact hstep [] []
    | cons us uss => exact hstep us uss

/-- A call delivers the code of its arguments and of the call. -/
theorem invoke (hr : Remarks q T) {f : Signature} (hf : T f.name) (hentry : f.entry ∈ may)
    (depth : Nat) (args : List Lowered) (uss : List (List String)) :
      (Lower.invoke f depth args).Delivers q may
      (Lowered.parcels args uss) fun v => [⟨v.code, uss.flatten⟩] := by
  refine bind (stageArguments _ _ uss) fun r => after (.remark (hr.called hf)) fun note hnote =>
    after (.checked _) fun call hcall => recordCall hcall hentry fun _ => ?_
  have hcode :
      Parcel.Gathers q may [⟨call, []⟩, ⟨r.1, uss.flatten⟩] ⟨r.1 ++ note ++ call, uss.flatten⟩ :=
    ((one _).behind (dull hnote)).behind (one _)
  exact ite (after (.registerFresh hr) fun z hz => pure (hcode.behind (dull hz))) (pure hcode)

theorem literal (hr : Remarks q T) (v : Literal) :
    (Lower.literal v).Delivers q may [] fun r => [⟨r.code, v.texts⟩] := by
  cases v with
  | number v => exact pure (dull (.plain rfl))
  | decimal v =>
    exact after (.remark (hr.decimal v)) fun note hnote =>
      pure (dull (.append (a := [mov eax (.bits v.bits)]) (.plain rfl) hnote))
  | char v => exact pure (dull (.plain rfl))
  | bool v => cases v <;> exact pure (dull (.plain rfl))
  | str v => exact place fun l => pure ((one _).behind (dull (.plain rfl)))

theorem decimalCode (op : BinaryOp) :
    (Lower.decimalCode op).Delivers q may [] fun code => [⟨code, []⟩] := by
  refine ite (mintLabel fun again => pure ?_) ?_
  · exact lines rfl rfl (.refl _) (List.cons_subset.2 ⟨List.mem_cons_self, List.nil_subset _⟩) rfl
      rfl
  · cases op.floatPair? with
    | none => exact pure (dull (.plain rfl))
    | some pair => exact pure (dull (.plain rfl))

theorem combine (hr : Remarks q T) (op : BinaryOp) (left right : Lowered) (l : Location) :
    (Lower.combine op left right l).Delivers q may [⟨right.code, vs⟩, ⟨left.code, us⟩]
      fun v => [⟨v.code, us ++ vs⟩] := by
  have hpush : Parcel.Gathers q may [] ⟨[push eax], []⟩ := dull (.plain rfl)
  have hoperands : Parcel.Gathers q may [⟨right.code, vs⟩, ⟨left.code, us⟩]
      ⟨left.code ++ [push eax] ++ right.code, us ++ vs⟩ := ((one _).behind hpush).append (one _)
  refine ite (reject _ _) (ite ?_ (ite (reject _ _) (ite ?_ (pure ?_))))
  · refine libraryFunction? (reject _ _) fun f hf => after .depthToRoot fun depth _ => ?_
    have hname : T f.name := hf ▸ hr.library .append
    have hcall : (Lower.invoke f depth [left, right]).Delivers q (f.entry :: may) _ _ :=
      invoke hr hname List.mem_cons_self depth [left, right] [us, vs]
    rw [show [us, vs].flatten = us ++ vs by simp] at hcall
    exact convert [] (dull .nil) hcall
  · exact adds (decimalCode op) fun code => pure (hoperands.behind (one _))
  · exact (hoperands.behind (dull (.plain rfl))).behind (dull (.integerCode op))

theorem applySign (sign : Sign) (v : Lowered) (l : Location) :
    (Lower.applySign sign v l).Delivers q may [⟨v.code, us⟩] fun w => [⟨w.code, us⟩] := by
  refine ite (reject _ _) ?_
  cases sign with
  | plus => exact pure (one _)
  | minus => exact pure ((one _).behind (dull (.negateCode v.ty)))

theorem applyCast (v : Lowered) (ty : ScalarType) (mode : CastMode) (l : Location) :
    (Lower.applyCast v ty mode l).Delivers q may [⟨v.code, us⟩] fun w => [⟨w.code, us⟩] := by
  have hsize : Code.IsDull q (if ty.isHeap then [xor edx edx] else []) := by
    split <;> exact .plain rfl
  cases mode with
  | deref => exact ite (reject _ _) (pure (((one _).behind (dull (.load _ _))).behind (dull hsize)))
  | immediate =>
    have hnarrow : Code.IsDull q (if ty.size = 1 ∧ v.ty.size ≠ 1 then [movzx eax al] else []) := by
      split <;> exact .plain rfl
    exact pure (((one _).behind (dull hnarrow)).behind (dull hsize))

theorem expect {ty : ScalarType} {x : Lower Lowered}
    (hx : x.Delivers q may ps fun v => [⟨v.code, us⟩]) :
    (Lower.expect ty l x).Delivers q may ps fun v => [⟨v.code, us⟩] :=
  bind hx fun _ => ite (pure (one _)) (reject _ _)

end Lower.Delivers

theorem Node.textsAll_eq (ns : List Node) : Node.textsAll ns = (ns.map Node.texts).flatten := by
  induction ns with
  | nil => rfl
  | cons n ns ih => rw [Node.textsAll, ih, List.map_cons, List.flatten_cons]

theorem Node.evaluate_deliversCases (hr : Remarks q T) :
    ExpressionCases
      (fun n => (∀ name ∈ n.names, T name) → ∀ may, n.evaluate.Delivers q may [] fun v =>
        [⟨v.code, n.texts⟩]) (fun ns => (∀ name ∈ Node.namesAll ns, T name) → ∀ name params may,
          (Node.evaluateArgs name params ns).Delivers q may [] fun vs =>
          Lowered.parcels vs (ns.map Node.texts)) where
  constant {form v l} hv _ may := by
    have htexts : (Node.mk form l).texts = v.texts := by
      cases form <;> cases hv <;> simp only [Node.texts, Literal.texts]
    rw [Node.evaluate_literal hv, htexts]
    exact .literal hr v
  var _ may := by
    unfold Node.evaluate Node.texts
    exact .idle (.readVariable _ _)
  binary hleft hright hnames may := by
    unfold Node.evaluate Node.texts
    obtain ⟨hl, hr'⟩ := List.forall_mem_append.1 hnames
    exact .adds (hleft hl may) fun a => .adds (hright hr' may) fun b => .combine hr _ a b _
  signed hvalue hnames may := by
    unfold Node.evaluate Node.texts
    exact .bind (hvalue hnames may) fun _ => .applySign _ _ _
  step _ may := by
    unfold Node.evaluate Node.texts
    exact .idle (.stepVariable _ _ _ _)
  call {name args l} hargs hnames may := by
    unfold Node.evaluate Node.texts
    obtain ⟨hname, hnames⟩ := List.forall_mem_cons.1 hnames
    rw [Node.textsAll_eq]
    exact .resolveCall fun x hx => .bind (hargs hnames _ _ _) fun values =>
      .invoke hr (hx ▸ hname) List.mem_cons_self _ values _
  addressOf _ may := by
    unfold Node.evaluate Node.texts
    exact .idle (.addressOf _ _)
  cast hvalue hnames may := by
    unfold Node.evaluate Node.texts
    exact .bind (hvalue hnames may) fun _ => .applyCast _ _ _ _
  misplaced hform _ may := by
    rw [Node.evaluate_misplaced hform]
    exact .reject _ _
  nil _ name params may := by
    unfold Node.evaluateArgs
    intro s vs t B held hs h
    obtain ⟨rfl, rfl⟩ := pure_eq_ok.1 h
    exact hs.gather [] (.dull .nil)
  cons {n ns} hn hns hnames name params may := by
    obtain ⟨h₁, h₂⟩ := List.forall_mem_append.1 hnames
    have hlist (v : Lowered) (params : List Param) : (Node.evaluateArgs name params ns >>= fun vs =>
        pure (v :: vs)).Delivers q may [⟨v.code, n.texts⟩] fun vs =>
          Lowered.parcels vs ((n :: ns).map Node.texts) :=
      .adds (hns h₂ name params may) fun vs =>
        .same (fun vs => Lowered.parcels vs ((n :: ns).map Node.texts)) (v :: vs)
    cases params with
    | nil =>
      unfold Node.evaluateArgs
      exact .after (.tell _) fun _ _ => .bind (hn h₁ may) fun v => hlist v []
    | cons p params =>
      unfold Node.evaluateArgs
      exact .bind (.expect (hn h₁ may)) fun v => hlist v params

/-- Compiling an expression delivers its code. -/
theorem Node.evaluate_delivers (hr : Remarks q T) {n : Node} (hnames : ∀ name ∈ n.names, T name)
    (may : List Label) : n.evaluate.Delivers q may [] fun v => [⟨v.code, n.texts⟩] :=
  (Node.evaluate_deliversCases hr).node n hnames may

theorem Node.evaluateOr_delivers (hr : Remarks q T) {value : Option Node}
    (hnames : ∀ name ∈ Node.namesOption value, T name) (ty : ScalarType) (may : List Label) :
    (Node.evaluateOr value ty).Delivers q may [] fun v => [⟨v.code, Node.textsOr value ty⟩] := by
  cases value with
  | none => exact .literal hr _
  | some v => exact .expect (Node.evaluate_delivers hr hnames may)

/-- The code of an expression does not call the operating system.  Only the library does, and what
releases heap values. -/
theorem Node.evaluateOr_system {value : Option Node} {ty : ScalarType} {v : Lowered} (hs : s.Formed)
    (h : Node.evaluateOr value ty s = .ok v t) : v.code.Shows .system 0 := by
  have hstart : s.Account .system ⟨s.ahead .system, none, s.target, s.session.included, []⟩ [] [] :=
    ⟨hs, rfl, nofun, rfl, List.forall_mem_nil _, (Int.add_zero _).symm, nofun, nofun⟩
  have hend := Node.evaluateOr_delivers (q := .system) (.any fun _ => trivial) (fun _ _ => trivial)
    ty [] hstart h
  have hgrows := ((IsQuiet.law.evaluateOr value ty s v t hs h).grows hs).sections
  have hmono : s.listing.count .system ≤ t.listing.count .system := by
    have hle : ∀ {a b : Code}, a <+: b → Feature.system.count a ≤ Feature.system.count b := by
      rintro a _ ⟨b, rfl⟩
      rw [Feature.count_eq_countP (p := (· == kernel)) fun _ _ => rfl,
        Feature.count_eq_countP (p := (· == kernel)) fun _ _ => rfl, List.countP_append]
      exact Nat.le_add_right ..
    exact Nat.add_le_add (Nat.add_le_add (hle (hgrows .data)) (hle (hgrows .functions)))
      (hle (hgrows .program))
  refine ⟨hend.opens _ List.mem_cons_self, ?_⟩
  have hahead : (0 : Int) - t.listing.count .system = (0 - s.listing.count .system) +
      Feature.system.count v.code := hend.ahead
  omega

end KuAsm
