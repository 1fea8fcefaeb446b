import KuAsm.Json.Reader

/-!
# Strings and numerals read back

What stands in a text of the exchange format between brackets, braces, commas and colons: quoted
strings and numerals.  A quoted string reads as the string, whatever its characters are.  A numeral
reads as it is written, if it is written well and the text goes on with something that cannot belong
to it.

## Main definitions

* `Numeral.Written`: the numeral is written well.
* `AfterValue`: what may stand behind a value.

## Main statements

* `scanText_quote`: a quoted string reads as the string.
* `scanDigits_render`: a numeral that is written well reads as it is written.
* `Numeral.written_ofInt`, `Numeral.written_ofSingle`: the numerals of a program are written well.
-/

namespace KuAsm.Json

variable {rest : List Char}

/-! ### Strings -/

theorem hexDigit?_hexChar : ∀ n < 16, hexDigit? (hexChar n) = some n := by decide

/-- A character that is written with the digits of its number reads as itself. -/
theorem scanText_escapeUnit {c : Char} (hc : c.toNat < 0x20) (acc rest : List Char) :
    scanText false .plain acc
        ('\\' :: 'u' :: '0' :: '0' :: hexChar (c.toNat / 16) :: hexChar (c.toNat % 16) :: rest) =
      scanText false .plain (c :: acc) rest := by
  have hhigh := hexDigit?_hexChar (c.toNat / 16) (by omega)
  have hlow := hexDigit?_hexChar (c.toNat % 16) (Nat.mod_lt _ (by decide))
  have hvalue : 16 * (c.toNat / 16) + c.toNat % 16 = c.toNat := Nat.div_add_mod _ 16
  have hzero : hexDigit? '0' = some 0 := rfl
  have hfirst : isLowHalf c.toNat = false := decide_eq_false (by omega)
  have hsecond : isHighHalf c.toNat = false := decide_eq_false (by omega)
  simp [scanText, hzero, hhigh, hlow, hvalue, hfirst, hsecond, Char.ofNat_toNat]

/-- A character reads as itself. -/
theorem scanText_escape (c : Char) (acc rest : List Char) :
    scanText false .plain acc (escape c ++ rest) = scanText false .plain (c :: acc) rest := by
  unfold escape
  iterate 7
    split
    · next hc => subst hc; rfl
  split
  · next hc => exact scanText_escapeUnit hc acc rest
  · next hquote hslash _ _ _ _ _ hplain =>
    show scanText false .plain acc (c :: rest) = _
    rw [scanText, if_neg hquote, if_neg hslash, if_neg hplain]

/-- The characters of a string read as themselves, up to the closing quote. -/
theorem scanText_flatMap_escape (cs acc rest : List Char) :
    scanText false .plain acc (cs.flatMap escape ++ '"' :: rest) =
      .ok (String.ofList (acc.reverse ++ cs), rest) := by
  induction cs generalizing acc with
  | nil =>
    rw [List.flatMap_nil, List.nil_append, scanText, if_pos rfl, List.append_nil]
  | cons c cs ih =>
    rw [List.flatMap_cons, List.append_assoc, scanText_escape, ih, List.reverse_cons,
      List.append_assoc]
    rfl

/-- A quoted string reads as the string, once its first quote is read. -/
theorem scanText_quote (s : String) (rest : List Char) :
    ∃ cs, quote s ++ rest = '"' :: cs ∧ scanText false .plain [] cs = .ok (s, rest) := by
  refine ⟨s.toList.flatMap escape ++ '"' :: rest, ?_, ?_⟩
  · simp [quote]
  · rw [scanText_flatMap_escape, List.reverse_nil, List.nil_append, String.ofList_toList]

/-! ### Digits -/

theorem isDigit_eq (c : Char) : isDigit c = c.isDigit := by
  unfold isDigit Char.isDigit
  rw [Bool.decide_and]
  rfl

/-- Digits of a number are digits. -/
theorem isDigit_of_mem_toDigits {n : Nat} {c : Char} (hc : c ∈ Nat.toDigits 10 n) :
    isDigit c = true := by
  rw [isDigit_eq]
  exact Nat.isDigit_of_mem_toDigits (by decide) (by decide) hc

theorem digitsValue_toDigits (n : Nat) : digitsValue (Nat.toDigits 10 n) = n :=
  Nat.ofDigitChars_toDigits (by decide) (by decide)

/-- A number that is not zero has no zero in front. -/
theorem head_toDigits_ne {n : Nat} (hn : n ≠ 0) :
    ∃ c cs, Nat.toDigits 10 n = c :: cs ∧ c ≠ '0' := by
  induction n using Nat.strongRecOn with
  | _ n ih =>
    by_cases hlt : n < 10
    · refine ⟨n.digitChar, [], Nat.toDigits_of_lt_base hlt, ?_⟩
      have hall : ∀ n < 10, n ≠ 0 → n.digitChar ≠ '0' := by decide
      exact hall n hlt hn
    · obtain ⟨c, cs, hcs, hc⟩ := ih (n / 10) (by omega) (by omega)
      exact ⟨c, cs ++ [(n % 10).digitChar],
        by rw [Nat.toDigits_of_base_le (by decide) (by omega), hcs]; rfl, hc⟩

/-- A row of digits ends where something else begins. -/
theorem span_digits {ds : List Char} (hds : ∀ c ∈ ds, isDigit c = true)
    (hrest : ∀ c ∈ rest.head?, isDigit c = false) :
    (ds ++ rest).takeWhile isDigit = ds ∧ (ds ++ rest).dropWhile isDigit = rest := by
  rw [List.takeWhile_append_of_pos hds, List.dropWhile_append_of_pos hds]
  cases rest with
  | nil => exact ⟨List.append_nil ds, rfl⟩
  | cons c cs =>
    have hc : ¬ isDigit c = true := by simp [hrest c rfl]
    rw [List.takeWhile_cons_of_neg hc, List.dropWhile_cons_of_neg hc, List.append_nil]
    exact ⟨rfl, rfl⟩

/-! ### Numerals -/

variable {lenient : Bool}

/-- What may stand behind a value: the end of the text, or what separates and closes values. -/
def AfterValue (rest : List Char) : Prop := ∀ c ∈ rest.head?, c = ',' ∨ c = ']' ∨ c = '\x7d'

/-- A numeral is written well: no zero stands in front of another digit, and there is a digit
wherever one has to stand. -/
structure Numeral.Written (n : Numeral) : Prop where
  whole : ∀ c ∈ n.whole, isDigit c = true
  front : n.whole = ['0'] ∨ ∃ c cs, n.whole = c :: cs ∧ c ≠ '0'
  fraction : ∀ c ∈ n.fraction, isDigit c = true
  exponent : ∀ x ∈ n.exponent, x.2 ≠ [] ∧ ∀ c ∈ x.2, isDigit c = true

theorem AfterValue.comma (rest : List Char) : AfterValue (',' :: rest) := by
  rintro c ⟨⟩
  exact .inl rfl

theorem AfterValue.bracket (rest : List Char) : AfterValue (']' :: rest) := by
  rintro c ⟨⟩
  exact .inr (.inl rfl)

theorem AfterValue.brace (rest : List Char) : AfterValue ('\x7d' :: rest) := by
  rintro c ⟨⟩
  exact .inr (.inr rfl)

theorem AfterValue.not_isDigit (h : AfterValue rest) : ∀ c ∈ rest.head?, isDigit c = false := by
  intro c hc
  rcases h c hc with rfl | rfl | rfl <;> rfl

/-- What stands behind the whole part of a numeral. -/
def Numeral.tail (n : Numeral) : List Char :=
  (if n.fraction = [] then [] else '.' :: n.fraction)
    ++ match n.exponent with
      | none => []
      | some (neg, ds) => 'e' :: (if neg then '-' else '+') :: ds

theorem Numeral.render_eq (n : Numeral) :
    n.render = (if n.negative then ['-'] else []) ++ (n.whole ++ n.tail) := by
  unfold Numeral.render Numeral.tail
  rewrite [List.append_assoc, List.append_assoc]
  rfl

theorem scanExponent_render {neg : Bool} {ds : List Char} (hne : ds ≠ [])
    (hds : ∀ c ∈ ds, isDigit c = true) (hrest : AfterValue rest) :
    scanExponent lenient ((if neg then '-' else '+') :: (ds ++ rest)) = .ok ((neg, ds), rest) := by
  obtain ⟨htake, hdrop⟩ := span_digits hds hrest.not_isDigit
  cases neg <;> simp [scanExponent, htake, hdrop, hne]

/-- The whole part of a numeral ends where the numeral goes on or ends. -/
theorem Numeral.tail_not_isDigit (n : Numeral) (hrest : AfterValue rest) :
    ∀ c ∈ (n.tail ++ rest).head?, isDigit c = false := by
  obtain ⟨negative, whole, fraction, exponent⟩ := n
  cases fraction with
  | cons d ds =>
    rintro c ⟨⟩
    rfl
  | nil =>
    cases exponent with
    | none => exact hrest.not_isDigit
    | some x =>
      rintro c ⟨⟩
      rfl

/-- What stands behind the whole part of a numeral reads as it is written. -/
theorem scanTail_render {n : Numeral} (hn : n.Written) {rest : List Char}
    (hrest : AfterValue rest) :
    scanTail lenient n.negative n.whole (n.tail ++ rest) = .ok (n, rest) := by
  obtain ⟨negative, whole, fraction, exponent⟩ := n
  have hexponent := hn.exponent
  dsimp only [Numeral.tail] at hexponent ⊢
  rw [List.append_assoc]
  by_cases hfraction : fraction = []
  · subst hfraction
    cases exponent with
    | none =>
      cases rest with
      | nil => rfl
      | cons c cs => rcases hrest c rfl with rfl | rfl | rfl <;> rfl
    | some x =>
      obtain ⟨neg, ds⟩ := x
      obtain ⟨hne, hds⟩ := hexponent _ rfl
      show (scanExponent lenient ((if neg then '-' else '+') :: (ds ++ rest))).map _ = _
      rw [scanExponent_render hne hds hrest]
      rfl
  · rw [if_neg hfraction]
    cases exponent with
    | none =>
      obtain ⟨htake, hdrop⟩ := span_digits hn.fraction hrest.not_isDigit
      dsimp only at htake hdrop
      simp only [scanTail, List.cons_append, List.nil_append, htake, hdrop, if_neg hfraction]
      cases rest with
      | nil => rfl
      | cons c cs => rcases hrest c rfl with rfl | rfl | rfl <;> rfl
    | some x =>
      obtain ⟨neg, ds⟩ := x
      obtain ⟨hne, hds⟩ := hexponent _ rfl
      have hbehind : ∀ c ∈ ('e' :: (if neg then '-' else '+') :: (ds ++ rest)).head?,
          isDigit c = false := by
        rintro c ⟨⟩
        rfl
      obtain ⟨htake, hdrop⟩ := span_digits hn.fraction hbehind
      dsimp only at htake hdrop
      simp only [scanTail, List.cons_append, htake, hdrop, if_neg hfraction,
        scanExponent_render hne hds hrest]
      rfl

/-- A numeral that is written well reads as it is written. -/
theorem scanDigits_render {n : Numeral} (hn : n.Written) (hrest : AfterValue rest) :
    scanDigits lenient (n.render ++ rest) = .ok (n, rest) := by
  have htail := @scanTail_render lenient n hn rest hrest
  have hbehind := n.tail_not_isDigit hrest
  have hrender :
      n.render ++ rest = (if n.negative then ['-'] else []) ++ (n.whole ++ (n.tail ++ rest)) := by
    rw [Numeral.render_eq, List.append_assoc, List.append_assoc]
  rw [hrender]
  generalize n.tail ++ rest = behind at *
  rcases hn.front with hfront | ⟨c, cs, hfront, hc⟩
  · rw [hfront] at htail ⊢
    have hzero : ∀ negative, scanTail lenient negative ['0'] behind = .ok (n, rest) →
        scanDigits lenient ((if negative then ['-'] else []) ++ (['0'] ++ behind)) =
          .ok (n, rest) := by
      intro negative h
      cases behind with
      | nil => cases negative <;> exact h
      | cons d ds =>
        have hd := hbehind d rfl
        cases negative <;> simp [scanDigits, hd, h]
    exact hzero n.negative htail
  · have hdigit : isDigit c = true := hn.whole c (hfront ▸ List.mem_cons_self)
    have hminus : c ≠ '-' := by
      rintro rfl
      cases hdigit
    obtain ⟨htake, hdrop⟩ :=
      span_digits (fun d hd => hn.whole d (hfront ▸ List.mem_cons_of_mem c hd)) hbehind
    rw [hfront] at htail ⊢
    cases hneg : n.negative <;> rw [hneg] at htail <;>
      simp [scanDigits, hminus, hdigit, htake, hdrop, htail]

namespace Numeral

/-- A numeral begins with a minus or a digit. -/
theorem Written.head {n : Numeral} (h : n.Written) :
    ∃ c cs, n.render = c :: cs ∧ (c = '-' ∨ isDigit c = true) := by
  obtain ⟨c, cs, hwhole⟩ : ∃ c cs, n.whole = c :: cs := by
    rcases h.front with hfront | ⟨c, cs, hfront, -⟩
    · exact ⟨_, _, hfront⟩
    · exact ⟨c, cs, hfront⟩
  have hdigit : isDigit c = true := h.whole c (hwhole ▸ List.mem_cons_self)
  rw [render_eq, hwhole]
  cases n.negative with
  | true => exact ⟨_, _, rfl, .inl rfl⟩
  | false => exact ⟨_, _, rfl, .inr hdigit⟩

/-- The digits of a number are written well as a whole part. -/
theorem front_toDigits (n : Nat) :
    Nat.toDigits 10 n = ['0'] ∨ ∃ c cs, Nat.toDigits 10 n = c :: cs ∧ c ≠ '0' := by
  by_cases hn : n = 0
  · subst hn
    exact .inl rfl
  · exact .inr (head_toDigits_ne hn)

/-- The numeral of an integer is written well. -/
theorem written_ofInt (i : Int) : (ofInt i).Written where
  whole _ hc := isDigit_of_mem_toDigits hc
  front := front_toDigits _
  fraction := nofun
  exponent := nofun

/-- The numeral of an integer of 64 bits stands for the integer. -/
theorem integer?_ofInt {i : Int} (hlow : -9223372036854775808 ≤ i)
    (hhigh : i ≤ 18446744073709551615) : (ofInt i).integer? = some i := by
  have hvalue : digitsValue (ofInt i).whole = i.natAbs := digitsValue_toDigits _
  unfold integer?
  rw [hvalue, if_neg (by simp [ofInt])]
  by_cases hneg : i < 0
  · have hbounds : 0 < i.natAbs ∧ i.natAbs ≤ negativeMax := by
      unfold negativeMax
      omega
    rw [if_pos (by simpa [ofInt] using hneg), if_pos hbounds]
    exact congrArg some (by omega)
  · have hbound : i.natAbs ≤ wordMax := by
      unfold wordMax
      omega
    rw [if_neg (by simpa [ofInt] using hneg), if_pos hbound]
    exact congrArg some (by omega)

end Numeral

end KuAsm.Json

namespace KuAsm

open Json

variable {tie : Tie}

/-! ### Numerals of decimal literals -/

/-- A point of a grid that rounds to a number is not zero. -/
theorem Single.onGrid?_ne_zero {m : Nat} {e : Int} {below : Nat} {power : Int} {c : Nat}
    (h : onGrid? tie m e below power = some c) : c ≠ 0 := by
  unfold onGrid? at h
  extract_lets scale inside value low high lowFits highFits down up at h
  have hpick : low ≠ 0 → tie.pick low ≠ 0 := by
    intro hlow
    unfold Tie.pick
    grind
  have hfits : lowFits = true → low ≠ 0 := by
    intro hfits
    simp only [lowFits, Bool.and_eq_true, bne_iff_ne] at hfits
    exact hfits.1
  have hhigh : high ≠ 0 := Nat.succ_ne_zero low
  grind

/-- Only a walk that finds nothing ends at zero, behind its last grid. -/
theorem Single.firstGrid_eq_zero {m : Nat} {e : Int} {below : Nat} (n : Nat) (power : Int)
    (h : (firstGrid tie m e below n power).digits = 0) :
    (firstGrid tie m e below n power).power = power - n := by
  induction n generalizing power with
  | zero => exact (Int.sub_zero power).symm
  | succ n ih =>
    unfold firstGrid at h ⊢
    cases hgrid : onGrid? tie m e below power with
    | some c =>
      rw [hgrid] at h
      exact absurd h (onGrid?_ne_zero hgrid)
    | none =>
      rw [hgrid] at h
      dsimp only at h ⊢
      rw [ih _ h]
      omega

/-- A decimal number of a `Single` is not zero with zeros behind it. -/
theorem Single.decimal_power_le {x : Single} (h : (x.decimal tie).digits = 0) :
    (x.decimal tie).power ≤ 0 := by
  unfold Single.decimal at h ⊢
  split
  · exact Int.le_refl _
  · next hx =>
    rw [if_neg hx] at h
    unfold shortest at h ⊢
    rw [firstGrid_eq_zero _ _ h]
    decide

/-- Both parts of a decimal number consist of digits. -/
theorem Single.Decimal.isDigit_of_mem_split (d : Decimal) {c : Char}
    (hc : c ∈ d.split.1 ++ d.split.2) : isDigit c = true := by
  have hdigits : ∀ c ∈ d.digitList, isDigit c = true := fun c hc => isDigit_of_mem_toDigits hc
  have hzeros : ∀ {k : Nat} {c : Char}, c ∈ List.replicate k '0' → isDigit c = true := by
    intro k c hc
    obtain ⟨-, rfl⟩ := List.mem_replicate.1 hc
    rfl
  unfold Decimal.split at hc
  dsimp only at hc
  split at hc
  · rcases List.mem_append.1 hc with hc | hc
    · obtain rfl := List.mem_singleton.1 hc
      rfl
    · exact (List.mem_append.1 hc).elim hzeros (hdigits c)
  · rcases List.mem_append.1 hc with hc | hc
    · exact (List.mem_append.1 hc).elim (fun hc => hdigits c (List.mem_of_mem_take hc)) hzeros
    · exact hdigits c (List.mem_of_mem_drop hc)

/-- No zero stands in front of another digit of a decimal number, unless it is zero with zeros
behind it. -/
theorem Single.Decimal.split_front (d : Decimal) (hd : d.digits = 0 → d.power ≤ 0) :
    d.split.1 = ['0'] ∨ ∃ c cs, d.split.1 = c :: cs ∧ c ≠ '0' := by
  unfold Decimal.split
  dsimp only
  split
  · exact .inl rfl
  · next hpoint =>
    by_cases hzero : d.digits = 0
    · have hlist : d.digitList = ['0'] := by
        rw [digitList, hzero]
        rfl
      have hone : (d.power + (['0'].length : Nat)).toNat = 1 := by
        have hpower := hd hzero
        rw [hlist] at hpoint
        simp only [List.length_singleton] at hpoint ⊢
        omega
      rw [hlist, hone]
      exact .inl rfl
    · obtain ⟨c, cs, hlist, hc⟩ := head_toDigits_ne hzero
      obtain ⟨k, hk⟩ : ∃ k, (d.power + d.digitList.length).toNat = k + 1 :=
        ⟨_, (Nat.succ_pred (by omega)).symm⟩
      rw [hk, show d.digitList = c :: cs from hlist]
      exact .inr ⟨c, _, rfl, hc⟩

/-- The numeral of a decimal literal is written well. -/
theorem Json.Numeral.written_ofSingle (x : Single) : (Numeral.ofSingle x).Written := by
  unfold Numeral.ofSingle
  dsimp only
  split
  · have hdigits : ∀ c ∈ (x.decimal .even).digitList, isDigit c = true :=
      fun c hc => isDigit_of_mem_toDigits hc
    refine ⟨fun c hc => hdigits c (List.mem_of_mem_take hc), ?_, fun c hc =>
      hdigits c (List.mem_of_mem_drop hc), ?_⟩
    · rcases Numeral.front_toDigits (x.decimal .even).digits with hfront | ⟨c, cs, hfront, hc⟩
      · exact .inl (by rw [Single.Decimal.digitList, hfront]; rfl)
      · exact .inr ⟨c, [], by rw [Single.Decimal.digitList, hfront]; rfl, hc⟩
    · rintro y ⟨⟩
      exact ⟨Nat.toDigits_ne_nil, fun c hc => isDigit_of_mem_toDigits hc⟩
  · refine ⟨fun c hc => ?_, ?_, fun c hc => ?_, nofun⟩
    · exact Single.Decimal.isDigit_of_mem_split _ (List.mem_append_left _ hc)
    · exact Single.Decimal.split_front _ Single.decimal_power_le
    · split at hc
      · obtain rfl := List.mem_singleton.1 hc
        rfl
      · exact Single.Decimal.isDigit_of_mem_split _ (List.mem_append_right _ hc)

end KuAsm
