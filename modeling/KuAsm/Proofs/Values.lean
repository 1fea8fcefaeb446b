import KuAsm.Proofs.Tokens

/-!
# Values read back

A value of the exchange format is written without blanks.  What is written reads as the value again,
if its numerals are written well, if the reader has room for its nesting, and if the text goes on
with something that may stand behind a value.

## Main definitions

* `Value.Written`: all numerals of a value are written well.

## Main statements

* `foldItems_next`, `foldItems_close`, `foldMembers_next`, `foldMembers_close`: what one step of
  reading a list or an object does.
* `Value.Written.read`: a value reads back.
-/

namespace KuAsm.Json

variable {c : Char} {ms : List (String × Value)} {cs rest : List Char} {vs : List Value}
  {fuel : Nat} {m : String × Value} {v : Value}

/-! ### Steps of reading -/

/-- The text begins with something that may open a value. -/
def OpensValue (cs : List Char) : Prop := ∃ c rest, cs = c :: rest ∧ isBlank c = false ∧ c ≠ ']'

theorem OpensValue.append (h : OpensValue cs) (rest : List Char) : OpensValue (cs ++ rest) := by
  obtain ⟨c, tail, rfl, hblank, hbracket⟩ := h
  exact ⟨c, tail ++ rest, rfl, hblank, hbracket⟩

theorem skipBlanks_cons (hc : isBlank c = false) (rest : List Char) :
    skipBlanks (c :: rest) = c :: rest :=
  List.dropWhile_cons_of_neg (by simp [hc])

section

variable {σ : Type} {item : σ → Scan σ} {member : σ → String → Scan σ} {fuel : Nat} {s : σ}

/-- The first item of a list. -/
theorem foldItems_first (hcs : OpensValue cs) :
    foldItems item (fuel + 1) true s cs = (item s cs).bind fun x =>
    foldItems item fuel false x.1 x.2 := by
  obtain ⟨c, rest, rfl, hblank, hbracket⟩ := hcs
  have hnext : nextItem true (c :: rest) = .ok (some (c :: rest)) := by
    simp [nextItem, skipBlanks_cons hblank]
  rw [foldItems, hnext]
  rfl

/-- A further item of a list. -/
theorem foldItems_next (hcs : OpensValue cs) :
    foldItems item (fuel + 1) false s (',' :: cs) = (item s cs).bind fun x =>
    foldItems item fuel false x.1 x.2 := by
  obtain ⟨c, rest, rfl, hblank, hbracket⟩ := hcs
  have hnext : nextItem false (',' :: c :: rest) = .ok (some (c :: rest)) := by
    simp [nextItem, skipBlanks_cons (c := ',') rfl, skipBlanks_cons hblank, hbracket]
  rw [foldItems, hnext]
  rfl

/-- The end of a list. -/
theorem foldItems_close (first : Bool) (rest : List Char) :
    foldItems item (fuel + 1) first s (']' :: rest) = .ok (s, rest) := rfl

/-- The first member of an object. -/
theorem foldMembers_first (key : String) (rest : List Char) :
    foldMembers false member (fuel + 1) true s (quote key ++ rest) =
      (member s key rest).bind fun x => foldMembers false member fuel false x.1 x.2 := by
  obtain ⟨cs, hcs, hscan⟩ := scanText_quote key rest
  have hnext : nextKey false true (quote key ++ rest) = .ok (some (key, rest)) := by
    rw [hcs]
    simp [nextKey, skipBlanks_cons (c := '"') rfl, hscan, Except.map]
  rw [foldMembers, hnext]
  rfl

/-- A further member of an object. -/
theorem foldMembers_next (key : String) (rest : List Char) :
    foldMembers false member (fuel + 1) false s (',' :: (quote key ++ rest)) =
      (member s key rest).bind fun x => foldMembers false member fuel false x.1 x.2 := by
  obtain ⟨cs, hcs, hscan⟩ := scanText_quote key rest
  have hnext : nextKey false false (',' :: (quote key ++ rest)) = .ok (some (key, rest)) := by
    rw [hcs]
    simp [nextKey, skipBlanks_cons (c := ',') rfl, skipBlanks_cons (c := '"') rfl, hscan,
      Except.map]
  rw [foldMembers, hnext]
  rfl

/-- The end of an object. -/
theorem foldMembers_close (first : Bool) (rest : List Char) :
    foldMembers false member (fuel + 1) first s ('\x7d' :: rest) = .ok (s, rest) := rfl

end

/-! ### Values without parts -/

/-- What begins a numeral begins nothing else. -/
theorem numeralHead (hc : c = '-' ∨ isDigit c = true) :
    isBlank c = false ∧ c ≠ ']' ∧ c ≠ '[' ∧ c ≠ '\x7b' ∧ c ≠ '"' ∧ c ≠ 'n' ∧ c ≠ 't' ∧ c ≠ 'f' := by
  have hother : ∀ {d : Char}, d ≠ '-' → isDigit d = false → c ≠ d := by
    rintro d hminus hdigit rfl
    rcases hc with hc | hc
    · exact hminus hc
    · rw [hdigit] at hc
      cases hc
  refine ⟨?_, hother (by decide) rfl, hother (by decide) rfl, hother (by decide) rfl,
    hother (by decide) rfl, hother (by decide) rfl, hother (by decide) rfl, hother (by decide) rfl⟩
  have hblank : c ≠ ' ' ∧ c ≠ '\n' ∧ c ≠ '\t' ∧ c ≠ '\r' :=
    ⟨hother (by decide) rfl, hother (by decide) rfl, hother (by decide) rfl, hother (by decide) rfl⟩
  simp [isBlank, hblank]

/-- A numeral reads as a value. -/
theorem scanNumeral_render {n : Numeral} (hn : n.Written) (hrange : n.isOutOfRange = false)
    (hrest : AfterValue rest) : scanNumeral false (n.render ++ rest) = .ok (n, rest) := by
  rw [scanNumeral, scanDigits_render hn hrest]
  simp [hrange]

theorem readScalar_numeral (hc : c = '-' ∨ isDigit c = true) (cs : List Char) :
    readScalar false (c :: cs) = (scanNumeral false (c :: cs)).map fun x => (.number x.1, x.2) := by
  obtain ⟨-, -, -, -, hquote, hn, ht, hf⟩ := numeralHead hc
  rw [readScalar, if_pos hc]
  · exact fun h => hquote h
  · exact fun h => hn h
  · exact fun h => ht h
  · exact fun h => hf h

/-- What opens neither a list nor an object is read at once. -/
theorem readValue_scalar {c : Char} (hblank : isBlank c = false) (hlist : c ≠ '[')
    (hrecord : c ≠ '\x7b') (fuel room : Nat)
    (cs : List Char) : readValue false (fuel + 1) room (c :: cs) = readScalar false (c :: cs) := by
  rw [readValue, skipBlanks_cons hblank]
  split
  · next heq => exact absurd (List.cons.inj heq).1 hlist
  · next heq => exact absurd (List.cons.inj heq).1 hrecord
  · rfl

/-- A list reads as the items that are collected. -/
theorem readValue_list {room : Nat}
    (h : foldItems (fun acc cs => (readValue false fuel room cs).map fun x => (x.1 :: acc, x.2))
      fuel true [] cs = .ok (vs.reverse, rest)) :
    readValue false (fuel + 1) (room + 1) ('[' :: cs) = .ok (.list vs, rest) := by
  show (foldItems _ fuel true [] cs).map _ = _
  rw [Nat.add_sub_cancel, h]
  show Except.ok (Value.list vs.reverse.reverse, rest) = _
  rw [List.reverse_reverse]

/-- An object reads as the members that are collected. -/
theorem readValue_record {fuel room : Nat} {cs rest : List Char} {ms : List (String × Value)}
    (h : foldMembers false (fun (acc : List (String × Value)) key cs => do
      let cs ← scanColon cs
      (readValue false fuel room cs).map fun x => ((key, x.1) :: acc, x.2)) fuel true [] cs =
        .ok (ms.reverse, rest)) :
    readValue false (fuel + 1) (room + 1) ('\x7b' :: cs) = .ok (.record ms, rest) := by
  show (foldMembers false _ fuel true [] cs).map _ = _
  rw [Nat.add_sub_cancel, h]
  show Except.ok (Value.record ms.reverse.reverse, rest) = _
  rw [List.reverse_reverse]

/-! ### Written values -/

/-- All numerals of a value are written well and not out of range. -/
inductive Value.Written : Value → Prop
  | null : Written .null
  | bool (b : Bool) : Written (.bool b)
  | number {n : Numeral} : n.Written → n.isOutOfRange = false → Written (.number n)
  | text (s : String) : Written (.text s)
  | list {vs : List Value} : (∀ v ∈ vs, Written v) → Written (.list vs)
  | record {ms : List (String × Value)} : (∀ m ∈ ms, Written m.2) → Written (.record ms)

namespace Value

/-- The items of a list behind the first one. -/
def itemsTail (vs : List Value) : List Char := vs.flatMap fun v => ',' :: v.render

/-- A member of an object. -/
def renderMember (m : String × Value) : List Char := quote m.1 ++ ':' :: m.2.render

/-- The members of an object behind the first one. -/
def membersTail (ms : List (String × Value)) : List Char :=
  ms.flatMap fun m => ',' :: renderMember m

theorem renderItems_cons (v : Value) (vs : List Value) :
    renderItems (v :: vs) = v.render ++ itemsTail vs := by
  induction vs generalizing v with
  | nil =>
    unfold renderItems
    exact (List.append_nil _).symm
  | cons w vs ih =>
    rw [renderItems, ih]
    · rfl
    · exact nofun

theorem renderMembers_cons (m : String × Value) (ms : List (String × Value)) :
    renderMembers (m :: ms) = renderMember m ++ membersTail ms := by
  induction ms generalizing m with
  | nil =>
    unfold renderMembers
    exact (List.append_nil _).symm
  | cons k ms ih =>
    rw [renderMembers, ih]
    · simp [renderMember, membersTail]
    · exact nofun

/-- Every written value begins with something that may open a value. -/
theorem Written.opens (h : v.Written) : OpensValue v.render := by
  have hopens : ∀ c rest, isBlank c = false → c ≠ ']' → OpensValue (c :: rest) :=
    fun c rest hblank hbracket => ⟨c, rest, rfl, hblank, hbracket⟩
  cases h with
  | null => exact hopens _ _ rfl (by decide)
  | bool b => cases b <;> exact hopens _ _ rfl (by decide)
  | text s =>
    unfold render
    exact hopens _ _ rfl (by decide)
  | list _ =>
    unfold render
    exact hopens _ _ rfl (by decide)
  | record _ =>
    unfold render
    exact hopens _ _ rfl (by decide)
  | @number n hn _ =>
    obtain ⟨c, cs, hrender, hc⟩ := hn.head
    obtain ⟨hblank, hbracket, -⟩ := numeralHead hc
    exact ⟨c, cs, hrender, hblank, hbracket⟩

theorem depth_le_itemsDepth (h : v ∈ vs) : v.depth ≤ itemsDepth vs := by
  induction vs with
  | nil => cases h
  | cons w vs ih =>
    unfold itemsDepth
    rcases List.mem_cons.1 h with rfl | h
    · exact Nat.le_max_left _ _
    · exact Nat.le_trans (ih h) (Nat.le_max_right _ _)

theorem depth_le_membersDepth (h : m ∈ ms) : m.2.depth ≤ membersDepth ms := by
  induction ms with
  | nil => cases h
  | cons k ms ih =>
    unfold membersDepth
    rcases List.mem_cons.1 h with rfl | h
    · exact Nat.le_max_left _ _
    · exact Nat.le_trans (ih h) (Nat.le_max_right _ _)

/-- Members that all nest at most so deep. -/
theorem membersDepth_le {d : Nat} (h : ∀ m ∈ ms, m.2.depth ≤ d) : membersDepth ms ≤ d := by
  induction ms with
  | nil => exact Nat.zero_le _
  | cons m ms ih =>
    rw [membersDepth]
    exact Nat.max_le.2 ⟨h m List.mem_cons_self, ih fun k hk => h k (List.mem_cons_of_mem m hk)⟩

/-- Items are not longer than their list, and there are no more items than characters. -/
theorem length_itemsTail (vs : List Value) :
    vs.length ≤ (itemsTail vs).length ∧ ∀ v ∈ vs, v.render.length < (itemsTail vs).length := by
  induction vs with
  | nil => exact ⟨Nat.le_refl _, nofun⟩
  | cons w vs ih =>
    have hcons : (itemsTail (w :: vs)).length = 1 + w.render.length + (itemsTail vs).length := by
      simp [itemsTail]
      omega
    refine ⟨by rw [hcons, List.length_cons]; omega, fun v hv => ?_⟩
    rcases List.mem_cons.1 hv with rfl | hv
    · omega
    · have hlt := ih.2 v hv
      omega

/-- Members are not longer than their object, and there are no more members than characters. -/
theorem length_membersTail (ms : List (String × Value)) :
    ms.length ≤ (membersTail ms).length ∧ ∀ m ∈ ms,
    m.2.render.length < (membersTail ms).length := by
  induction ms with
  | nil => exact ⟨Nat.le_refl _, nofun⟩
  | cons k ms ih =>
    have hcons :
        (membersTail (k :: ms)).length = 1 + (renderMember k).length + (membersTail ms).length := by
      simp [membersTail]
      omega
    have hmember : k.2.render.length < (renderMember k).length := by
      simp [renderMember]
      omega
    refine ⟨by rw [hcons, List.length_cons]; omega, fun m hm => ?_⟩
    rcases List.mem_cons.1 hm with rfl | hm
    · omega
    · have hlt := ih.2 m hm
      omega

end Value

/-! ### Runs of reading -/

theorem AfterValue.separated {α : Type} (text : α → List Char) (as : List α)
    (hrest : AfterValue rest) : AfterValue (as.flatMap (fun a => ',' :: text a) ++ rest) := by
  cases as with
  | nil => exact hrest
  | cons a as => exact .comma _

/-- The items of a list, a comma between two of them. -/
def separate {α : Type} (text : α → List Char) : List α → List Char
  | [] => []
  | a :: as => text a ++ as.flatMap fun b => ',' :: text b

section

variable {σ α : Type} {item : σ → Scan σ} {text : α → List Char} {step : σ → α → σ} {as : List α}

/-- Reading items one after another. -/
theorem foldItems_run (hopens : ∀ a ∈ as, OpensValue (text a))
    (hitem : ∀ a ∈ as, ∀ s rest, AfterValue rest → item s (text a ++ rest) = .ok (step s a, rest))
    (hrest : AfterValue rest) (fuel : Nat) (s : σ) :
    foldItems item (as.length + fuel) false s (as.flatMap (fun a => ',' :: text a) ++ rest) =
      foldItems item fuel false (as.foldl step s) rest := by
  induction as generalizing s with
  | nil =>
    rw [List.length_nil, Nat.zero_add]
    rfl
  | cons a as ih =>
    have hopens' := fun b hb => hopens b (List.mem_cons_of_mem a hb)
    have hitem' := fun b hb => hitem b (List.mem_cons_of_mem a hb)
    have hread := hitem a List.mem_cons_self s _ (hrest.separated text as)
    rw [List.flatMap_cons, List.length_cons, Nat.add_right_comm, List.append_assoc,
      List.cons_append, foldItems_next ((hopens a List.mem_cons_self).append _), hread]
    exact ih hopens' hitem' (step s a)

/-- Reading all items of a list. -/
theorem foldItems_all (hopens : ∀ a ∈ as, OpensValue (text a))
    (hitem : ∀ a ∈ as, ∀ s rest, AfterValue rest → item s (text a ++ rest) = .ok (step s a, rest))
    (hfuel : as.length < fuel) (s : σ) (rest : List Char) :
    foldItems item fuel true s (separate text as ++ ']' :: rest) = .ok (as.foldl step s, rest) := by
  cases as with
  | nil =>
    obtain ⟨k, rfl⟩ := Nat.exists_eq_add_of_lt hfuel
    exact foldItems_close true rest
  | cons a as =>
    obtain ⟨k, rfl⟩ : ∃ k, fuel = as.length + (k + 1) + 1 :=
      ⟨fuel - as.length - 2, by rw [List.length_cons] at hfuel; omega⟩
    have hopens' := fun b hb => hopens b (List.mem_cons_of_mem a hb)
    have hitem' := fun b hb => hitem b (List.mem_cons_of_mem a hb)
    have hread := hitem a List.mem_cons_self s _ ((AfterValue.bracket rest).separated text as)
    rw [separate, List.append_assoc, foldItems_first ((hopens a List.mem_cons_self).append _),
      hread]
    exact (foldItems_run hopens' hitem' (.bracket rest) (k + 1) (step s a)).trans
      (foldItems_close false rest)

/-- Collecting all items of a list. -/
theorem foldItems_collect {read : Scan α} (hopens : ∀ a ∈ as, OpensValue (text a))
    (hread : ∀ a ∈ as, ∀ rest, AfterValue rest → read (text a ++ rest) = .ok (a, rest))
    (hfuel : as.length < fuel) (rest : List Char) :
    foldItems (fun acc cs => (read cs).map fun x => (x.1 :: acc, x.2)) fuel true []
      (separate text as ++ ']' :: rest) = .ok (as.reverse, rest) := by
  rw [← List.append_nil as.reverse, ← List.foldl_flip_cons_eq_append']
  refine foldItems_all hopens (fun a ha acc rest hrest => ?_) hfuel [] rest
  rw [hread a ha rest hrest]
  rfl

end

section

variable {σ : Type} {member : σ → String → Scan σ} {step : σ → String × Value → σ}
  {ms : List (String × Value)} {P : σ → Prop}

/-- Reading members one after another. -/
theorem foldMembers_run
    (hmember : ∀ m ∈ ms, ∀ s rest, P s → AfterValue rest →
      member s m.1 (':' :: (m.2.render ++ rest)) = .ok (step s m, rest) ∧ P (step s m))
    (hrest : AfterValue rest) (fuel : Nat) {s : σ} (hs : P s) :
    foldMembers false member (ms.length + fuel) false s (Value.membersTail ms ++ rest) =
      foldMembers false member fuel false (ms.foldl step s) rest := by
  induction ms generalizing s with
  | nil =>
    rw [List.length_nil, Nat.zero_add]
    rfl
  | cons m ms ih =>
    have hmember' := fun k hk => hmember k (List.mem_cons_of_mem m hk)
    obtain ⟨hread, hstep⟩ :=
      hmember m List.mem_cons_self s _ hs (hrest.separated Value.renderMember ms)
    have htext : Value.membersTail (m :: ms) ++ rest =
        ',' :: (quote m.1 ++ (':' :: (m.2.render ++ (Value.membersTail ms ++ rest)))) := by
      simp [Value.membersTail, Value.renderMember]
    rw [htext, List.length_cons, Nat.add_right_comm, foldMembers_next, Value.membersTail, hread]
    exact ih hmember' hstep

/-- Reading the first members of an object. -/
theorem foldMembers_begin
    (hmember : ∀ k ∈ m :: ms, ∀ s rest, P s → AfterValue rest →
      member s k.1 (':' :: (k.2.render ++ rest)) = .ok (step s k, rest) ∧ P (step s k))
    (hrest : AfterValue rest) (fuel : Nat) {s : σ} (hs : P s) :
    foldMembers false member ((m :: ms).length + fuel) true s
      (Value.renderMembers (m :: ms) ++ rest) =
        foldMembers false member fuel false ((m :: ms).foldl step s) rest := by
  have hmember' := fun k hk => hmember k (List.mem_cons_of_mem m hk)
  obtain ⟨hread, hstep⟩ :=
    hmember m List.mem_cons_self s _ hs (hrest.separated Value.renderMember ms)
  have htext : Value.renderMembers (m :: ms) ++ rest =
      quote m.1 ++ (':' :: (m.2.render ++ (Value.membersTail ms ++ rest))) := by
    simp [Value.renderMembers_cons, Value.renderMember]
  rw [htext, List.length_cons, Nat.add_right_comm, foldMembers_first, Value.membersTail, hread]
  exact foldMembers_run hmember' hrest fuel hstep

/-- Collecting all members of an object. -/
theorem foldMembers_collect {read : Scan Value}
    (hread : ∀ m ∈ ms, ∀ rest, AfterValue rest → read (m.2.render ++ rest) = .ok (m.2, rest))
    (hfuel : ms.length < fuel)
    (rest : List Char) : foldMembers false (fun (acc : List (String × Value)) key cs => do
      let cs ← scanColon cs
      (read cs).map fun x => ((key, x.1) :: acc, x.2)) fuel true []
        (Value.renderMembers ms ++ '\x7d' :: rest) = .ok (ms.reverse, rest) := by
  obtain ⟨k, rfl⟩ : ∃ k, fuel = ms.length + (k + 1) := ⟨fuel - ms.length - 1, by omega⟩
  rw [← List.append_nil ms.reverse, ← List.foldl_flip_cons_eq_append']
  cases ms with
  | nil =>
    unfold Value.renderMembers
    rfl
  | cons m ms =>
    refine (foldMembers_begin (P := fun _ => True) (fun n hn acc rest _ hrest => ⟨?_, trivial⟩)
      (.brace rest) (k + 1) trivial).trans (foldMembers_close false rest)
    show (read (n.2.render ++ rest)).map _ = _
    rw [hread n hn rest hrest]
    rfl

end

/-! ### Values -/

namespace Value

theorem renderItems_eq_separate (vs : List Value) : renderItems vs = separate render vs := by
  cases vs with
  | nil =>
    unfold renderItems
    rfl
  | cons v vs => exact renderItems_cons v vs

/-- The items of a list are not longer than the list, and there are no more items than
characters. -/
theorem length_renderItems (hvs : ∀ v ∈ vs, v.Written) :
    vs.length ≤ (renderItems vs).length ∧ ∀ v ∈ vs, v.render.length ≤ (renderItems vs).length := by
  cases vs with
  | nil => exact ⟨Nat.zero_le _, nofun⟩
  | cons w vs =>
    obtain ⟨c, cs, hw, -⟩ := (hvs w List.mem_cons_self).opens
    obtain ⟨hcount, hlong⟩ := length_itemsTail vs
    rw [renderItems_cons, List.length_append, List.length_cons]
    refine ⟨by rw [hw, List.length_cons]; omega, fun v hv => ?_⟩
    rcases List.mem_cons.1 hv with rfl | hv
    · exact Nat.le_add_right _ _
    · exact Nat.le_trans (Nat.le_of_lt (hlong v hv)) (Nat.le_add_left _ _)

/-- The members of an object are not longer than the object, and there are no more members than
characters. -/
theorem length_renderMembers (ms : List (String × Value)) :
    ms.length ≤ (renderMembers ms).length ∧ ∀ m ∈ ms,
    m.2.render.length ≤ (renderMembers ms).length := by
  cases ms with
  | nil => exact ⟨Nat.zero_le _, nofun⟩
  | cons k ms =>
    obtain ⟨hcount, hlong⟩ := length_membersTail ms
    have hmember : k.2.render.length < (renderMember k).length := by
      simp [renderMember]
      omega
    rw [renderMembers_cons, List.length_append, List.length_cons]
    refine ⟨by omega, fun m hm => ?_⟩
    rcases List.mem_cons.1 hm with rfl | hm
    · omega
    · exact Nat.le_trans (Nat.le_of_lt (hlong m hm)) (Nat.le_add_left _ _)

/-- A value that is written reads back. -/
theorem Written.read (h : v.Written) {room : Nat} (hfuel : v.render.length < fuel)
    (hroom : v.depth ≤ room)
    (hrest : AfterValue rest) : readValue false fuel room (v.render ++ rest) = .ok (v, rest) := by
  induction h generalizing fuel room rest with
  | null =>
    obtain ⟨k, rfl⟩ := Nat.exists_eq_add_of_lt hfuel
    rfl
  | bool b =>
    obtain ⟨k, rfl⟩ := Nat.exists_eq_add_of_lt hfuel
    cases b <;> rfl
  | text s =>
    obtain ⟨k, rfl⟩ := Nat.exists_eq_add_of_lt hfuel
    obtain ⟨cs, hcs, hscan⟩ := scanText_quote s rest
    unfold render
    rw [hcs, readValue_scalar rfl (by decide) (by decide)]
    show (scanText false .plain [] cs).map _ = _
    rw [hscan]
    rfl
  | @number n hn hrange =>
    obtain ⟨k, rfl⟩ := Nat.exists_eq_add_of_lt hfuel
    have hscan := scanNumeral_render hn hrange hrest
    obtain ⟨c, cs, hrender, hc⟩ := hn.head
    obtain ⟨hblank, -, hlist, hrecord, -⟩ := numeralHead hc
    unfold render
    rw [hrender, List.cons_append] at hscan ⊢
    rw [readValue_scalar hblank hlist hrecord, readScalar_numeral hc, hscan]
    rfl
  | @list vs hvs ih =>
    unfold depth at hroom
    unfold render at hfuel ⊢
    obtain ⟨k, rfl⟩ : ∃ k, fuel = k + 1 := ⟨fuel - 1, by omega⟩
    obtain ⟨r, rfl⟩ : ∃ r, room = r + 1 := ⟨room - 1, by omega⟩
    obtain ⟨hcount, hlong⟩ := length_renderItems hvs
    simp only [List.cons_append, List.append_assoc, List.length_cons, List.length_append,
      List.length_nil, List.nil_append] at hfuel ⊢
    -- an item is shorter than the list and less deep, so there is fuel and room for it
    have hread : ∀ v ∈ vs, ∀ rest, AfterValue rest → readValue false k r (v.render ++ rest) =
        .ok (v, rest) := by
      intro v hv rest hrest
      have hlength := hlong v hv
      have hdepth := depth_le_itemsDepth hv
      exact ih v hv (by omega) (by omega) hrest
    have hitems := foldItems_collect (fun v hv => (hvs v hv).opens) hread
      (by omega : vs.length < k) rest
    rw [← renderItems_eq_separate] at hitems
    exact readValue_list hitems
  | @record ms hms ih =>
    unfold depth at hroom
    unfold render at hfuel ⊢
    obtain ⟨k, rfl⟩ : ∃ k, fuel = k + 1 := ⟨fuel - 1, by omega⟩
    obtain ⟨r, rfl⟩ : ∃ r, room = r + 1 := ⟨room - 1, by omega⟩
    obtain ⟨hcount, hlong⟩ := length_renderMembers ms
    simp only [List.cons_append, List.append_assoc, List.length_cons, List.length_append,
      List.length_nil, List.nil_append] at hfuel ⊢
    have hread : ∀ m ∈ ms, ∀ rest, AfterValue rest → readValue false k r (m.2.render ++ rest) =
        .ok (m.2, rest) := by
      intro m hm rest hrest
      have hlength := hlong m hm
      have hdepth := depth_le_membersDepth hm
      exact ih m hm (by omega) (by omega) hrest
    have hmembers := foldMembers_collect hread (by omega : ms.length < k) rest
    exact readValue_record hmembers

end Value

end KuAsm.Json
