import KuAsm.Proofs.Demand
import Mathlib.Data.List.Forall2

/-!
# Asking for strings

A string that an expression asks for is placed in the data section at once, unless it is there
already, and its label is loaded by the code of the expression, which is written later.
`Listing.Supplied l ds us` says that everything that was asked for so far is there.
-/

namespace KuAsm

open Asm Reg Lower

/-- The label stands for the string. -/
def Listing.Names (l : Listing) (label : Label) (text : String) : Prop := (text, label) ∈ l.literals

/-- Everything that was asked for is there: what is written loads the strings `ds`, and what is not
written yet the strings `us`. -/
structure Listing.Supplied (l : Listing) (ds : Demands) (us : List String) : Prop where
  /-- The data section has one line for each literal. -/
  data : l.data = l.literals.map fun x => .bytes x.2 x.1.toUTF8.toList
  /-- The literals are the strings that were asked for, in the order in which they were asked for
  first. -/
  texts : l.literals.map (·.1) = (ds.map (·.2) ++ us).eraseDups
  /-- What is loaded in a section stands for what was asked for there. -/
  uses : ∀ x, List.Forall₂ l.Names (Code.loads (l.lines x)) (ds.within x)

namespace Listing

variable (l : Listing) (x y : Section) (code : Code)

theorem lines_append : (l.append y code).lines x = l.lines x ++ if x = y then code else [] := by
  by_cases h : x = y
  · subst h
    rw [if_pos rfl]
    cases x <;> rfl
  · rw [if_neg h, List.append_nil]
    cases x <;> cases y <;> first | rfl | exact absurd rfl h

theorem literals_append : (l.append y code).literals = l.literals := by cases y <;> rfl

theorem names_append : (l.append y code).Names = l.Names := by
  unfold Names
  rw [literals_append]

end Listing

theorem Demands.within_append (ds : Demands) (place : Section) (us : List String) (x : Section) :
    Demands.within (ds ++ us.map (place, ·)) x = ds.within x ++ if x = place then us else [] := by
  unfold Demands.within
  rw [List.filter_append, List.map_append, List.filter_map, List.map_map]
  congr 1
  by_cases hx : x = place
  · simp [hx, Function.comp_def]
  · simp [hx, Function.comp_def, Ne.symm hx]

namespace Listing.Supplied

variable {l : Listing} {ds : Demands} {code : Code} {us : List String}

/-- Writing some of the code that was not written yet. -/
theorem append (h : l.Supplied ds us) {vs ws : List String} {x : Section} (hx : x ≠ .data)
    (hcode : List.Forall₂ l.Names (Code.loads code) vs) (hus : us = vs ++ ws) :
    (l.append x code).Supplied (ds ++ vs.map (x, ·)) ws := by
  have hdata : (l.append x code).data = l.data := by
    have hlines := lines_append l .data x code
    rwa [if_neg hx.symm, List.append_nil] at hlines
  refine ⟨?_, ?_, fun y => ?_⟩
  · rw [hdata, literals_append]
    exact h.data
  · rw [literals_append, h.texts, hus]
    simp only [List.map_append, List.map_map, Function.comp_def, List.map_id', List.append_assoc]
  · rw [names_append, Demands.within_append, lines_append, Code.loads_append]
    refine List.rel_append (h.uses y) ?_
    split
    · exact hcode
    · exact .nil

/-- A string that was asked for before is among the literals, and no other one is. -/
theorem mem_texts (h : l.Supplied ds us) {text : String} :
    text ∈ ds.map (·.2) ++ us ↔ ∃ label, (text, label) ∈ l.literals := by
  have hmem : text ∈ l.literals.map (·.1) ↔ text ∈ ds.map (·.2) ++ us := by
    rw [h.texts]
    exact List.mem_eraseDups
  rw [← hmem, List.mem_map]
  exact ⟨fun ⟨⟨_, label⟩, hx, heq⟩ => ⟨label, heq ▸ hx⟩, fun ⟨label, hl⟩ =>
    ⟨(text, label), hl, rfl⟩⟩

/-- Asking for one more string.  Labels keep their meaning. -/
theorem placed (h : l.Supplied ds us) (session : Session) (text : String) :
    (l.place session text).2.1.Supplied ds (us ++ [text]) ∧
      (l.place session text).2.1.Names (l.place session text).1 text ∧
      ∀ label key, l.Names label key → (l.place session text).2.1.Names label key := by
  have htexts : (ds.map (·.2) ++ (us ++ [text])).eraseDups =
      l.literals.map (·.1) ++ ([text].removeAll (ds.map (·.2) ++ us)).eraseDups := by
    rw [← List.append_assoc, List.eraseDups_append, h.texts]
  cases hold : l.literal? text with
  | some label =>
    rw [show l.place session text = (label, l, session) by rw [Listing.place, hold]]
    obtain ⟨⟨key, label⟩, hfind, rfl⟩ := Option.map_eq_some_iff.1 hold
    have hkey : key = text := by simpa using List.find?_some hfind
    have hmem : (text, label) ∈ l.literals := hkey ▸ List.mem_of_find?_eq_some hfind
    have hremove : [text].removeAll (ds.map (·.2) ++ us) = [] := by
      simp [List.removeAll, h.mem_texts.2 ⟨label, hmem⟩]
    refine ⟨⟨h.data, ?_, h.uses⟩, hmem, fun _ _ => id⟩
    rw [htexts, hremove]
    exact (List.append_nil _).symm
  | none =>
    -- the string was not asked for before, so it comes last
    have hnew : text ∉ ds.map (·.2) ++ us := by
      intro hmem
      obtain ⟨label, hl⟩ := h.mem_texts.1 hmem
      have hfind := List.find?_eq_none.1 (Option.map_eq_none_iff.1 hold) _ hl
      exact hfind (by simp)
    have hremove : [text].removeAll (ds.map (·.2) ++ us) = [text] := by
      unfold List.removeAll
      rw [List.filter_cons_of_pos (by simpa using hnew), List.filter_nil]
    rw [show l.place session text =
      ((session.mintLabel "str").1, _,
        (session.mintLabel "str").2.tell _) by rw [Listing.place, hold]]
    have hnames : ∀ label key, l.Names label key → (key, label) ∈
        l.literals ++ [(text, (session.mintLabel "str").1)] :=
        fun _ _ hl => List.mem_append_left _ hl
    refine ⟨⟨?_, ?_, fun x => ?_⟩, List.mem_append_right _ (List.mem_singleton_self _), hnames⟩
    · dsimp only
      rw [h.data, List.map_append]
      rfl
    · dsimp only
      rw [htexts, hremove, List.map_append]
      rfl
    · refine List.Forall₂.imp hnames ?_
      have huses := h.uses x
      cases x with
      | data =>
        show List.Forall₂ _ (Code.loads (l.data ++ [_])) _
        rw [Code.loads_append]
        exact (List.append_nil _).symm ▸ huses
      | functions => exact huses
      | program => exact huses

end Listing.Supplied

end KuAsm
