import KuAsm.Proofs.Growth

/-!
# Actions that decide a question

Compiling checks a program while it writes code.  An action decides a question if it ends well
exactly if the question has an answer, and the answer can be seen from how it ends.  A run that
stops with a fault, because a number is out of range, decides nothing.

## Main statements

* `Lower.IsLenient`: an action that never rejects a program; this is a law that admits writing.
* `Lower.Decides`: an action decides a question.
* `Lower.Decides.bind`: a sequence decides the question whether there is an answer to the first part
  for which there is an answer to the second.
-/

namespace KuAsm.Lower

variable {α β γ δ : Type} {s : State}

/-! ### Lenient actions -/

/-- A lenient action never rejects a program. -/
def IsLenient (x : Lower α) : Prop := ∀ s d t, x s ≠ .error (.rejected d) t

theorem IsLenient.pure (a : α) : (pure a : Lower α).IsLenient := fun _ _ _ h => nomatch h

theorem IsLenient.bind {x : Lower α} {f : α → Lower β} (hx : x.IsLenient)
    (hf : ∀ a, (f a).IsLenient) : (x >>= f).IsLenient := by
  intro s d t h
  rcases bind_eq_error.1 h with h | ⟨a, u, -, h⟩
  · exact hx s d t h
  · exact hf a u d t h

theorem IsLenient.read {f : State → Lower β} (hf : ∀ s, (f s).IsLenient) :
    ((get : Lower State) >>= f).IsLenient := fun s d t h => hf s s d t h

theorem IsLenient.modifyGet (f : State → α × State) : (modifyGet f : Lower α).IsLenient :=
  fun _ _ _ h => nomatch h

theorem IsLenient.modify (f : State → State) : (modify f : Lower PUnit).IsLenient := .modifyGet _

theorem IsLenient.withSession (f : Session → α × Session) : (withSession f).IsLenient :=
  .modifyGet _

theorem IsLenient.setScope (sc : Scope) : (setScope sc).IsLenient := .modify _

theorem IsLenient.checked (x : Except Fault α) : (checked x).IsLenient := by
  cases x with
  | ok a => exact .pure a
  | error f => exact fun _ _ _ h => nomatch h

theorem IsLenient.mintLabel (hint : String) : (mintLabel hint).IsLenient := .withSession _

theorem IsLenient.mintReclaim : mintReclaim.IsLenient := .withSession _

theorem IsLenient.tell (n : Notice) : (tell n).IsLenient := .withSession _

theorem IsLenient.emit (code : Code) : (emit code).IsLenient := .modify _

theorem IsLenient.reserve (size : Nat) : (reserve size).IsLenient :=
  .bind (.read fun _ => .pure _) fun _ => .bind (.checked _) fun _ => .bind (.setScope _)
    fun _ => .pure _

/-- Leniency is a law that admits writing. -/
theorem IsLenient.law : WritingLaw @IsLenient where
  pure := .pure
  bind := .bind
  read := .read
  fault _ _ _ _ h := nomatch h
  mintLabel := .mintLabel
  tell := .tell
  recordCall _ := .withSession _
  recordFree := .withSession _
  reserve := .reserve
  place _ := .modifyGet _
  registerFresh := .bind .mintReclaim fun _ => .bind (.reserve _) fun _ =>
      .bind (.reserve _) fun _ =>
    .bind (.read fun _ => .pure _) fun _ => .bind (.setScope _) fun _ => .bind (.checked _) fun _ =>
      .bind (.checked _) fun _ => .bind (.read fun _ => .pure _) fun _ => .pure _
  weaken _ hx _ _ := hx
  emit := .emit

theorem IsLenient.pushScope (l : Label) : (pushScope l).IsLenient :=
  .read fun _ => .bind (fun _ _ _ h => nomatch h) fun _ => .pure _

theorem IsLenient.openBlock : openBlock.IsLenient :=
  .bind (.mintLabel _) fun _ => .bind (.pushScope _) fun _ => .bind (.emit _) fun _ =>
    .bind (.modify _) fun _ => .pure _

theorem IsLenient.closeBlock (reachable : Bool) : (closeBlock reachable).IsLenient := by
  refine .read fun s => ?_
  cases reachable with
  | true =>
    exact .bind (law.exitFrame _ _) fun _ => .bind (law.defineFrameSize _) fun _ => .modify _
  | false => exact .bind (law.defineFrameSize _) fun _ => .modify _

theorem IsLenient.openLoop : openLoop.IsLenient :=
  .bind (.mintLabel _) fun _ => .bind (.mintLabel _) fun _ => .bind (.mintLabel _) fun _ =>
    .bind (.mintLabel _) fun _ => .bind (.emit _) fun _ => .bind .openBlock fun _ =>
      .bind (.read fun _ => .pure _) fun _ => .bind (.setScope _) fun _ => .pure _

theorem IsLenient.closeLoop (f : LoopFrame) : (closeLoop f).IsLenient :=
  .bind (law.exitFrame _ _) fun _ => .bind (.emit _) fun _ => .bind (.emit _) fun _ =>
    .bind (.closeBlock _) fun _ => .emit _

theorem IsLenient.takeOwnership (o : Ownership) (name : String) (l : Location) :
    (takeOwnership o name l).IsLenient := by
  cases o with
  | fresh id =>
    exact .bind (.read fun _ => .pure _) fun _ => .bind (.setScope _) fun _ =>
        .bind (.tell _) fun _ =>
      .pure _
  | borrowed id => exact .bind (.tell _) fun _ => .pure _
  | plain => exact .pure _

theorem IsLenient.getDM (id? : Option ReclaimId) :
    Lower.IsLenient (id?.getDM Lower.mintReclaim) := by
  cases id? with
  | none => exact .mintReclaim
  | some id => exact .pure id

theorem IsLenient.own (name : String) (id : ReclaimId) : (own name id).IsLenient :=
  .bind (.read fun _ => .pure _) fun _ => .setScope _

theorem IsLenient.adopt (p : Param) : (adopt p).IsLenient :=
  law.ite (.bind .mintReclaim fun _ => .own _ _) (.pure _)

theorem IsLenient.openBody (f : Signature) : (openBody f).IsLenient :=
  .bind (.mintLabel _) fun _ => .bind (.pushScope _) fun _ => .bind (.modify _) fun _ =>
    .bind (.reserve _) fun _ => .bind (.reserve _) fun _ => .bind (.read fun _ => .pure _) fun _ =>
      .bind (.setScope _) fun _ => .pure _

theorem IsLenient.closeFunction (name : String) (f : FunctionFrame) :
    (closeFunction name f).IsLenient :=
  .bind (law.fetchResult _) fun _ => .bind (.emit _) fun _ => .bind (law.defineFrameSize _) fun _ =>
    .bind (.emit _) fun _ => .bind (.modify _) fun _ => .withSession _

/-! ### Deciding -/

/-- Run in `s`, the action decides the question `P`: if it ends well, what is seen of its end is the
only answer, and if it rejects the program, there is no answer. -/
structure Decides (x : Lower α) (s : State) (P : β → Prop) (view : α → State → β) : Prop where
  accepts : ∀ a t, x s = .ok a t → ∀ b, P b ↔ b = view a t
  rejects : ∀ d t, x s = .error (.rejected d) t → ∀ b, ¬ P b

namespace Decides

variable {x : Lower α} {f : α → Lower β} {P : γ → Prop} {view : α → State → γ} {see : β → State → δ}

/-- Equivalent questions are decided by the same actions. -/
theorem congr {Q : γ → Prop} (hx : x.Decides s P view) (h : ∀ c, P c ↔ Q c) :
    x.Decides s Q view where
  accepts a t hxa c := (h c).symm.trans (hx.accepts a t hxa c)
  rejects d t hxd c hc := hx.rejects d t hxd c ((h c).2 hc)

/-- A sequence decides whether the first part has an answer for which the second part has one. -/
theorem bind {Q : γ → δ → Prop} (hx : x.Decides s P view)
    (hf : ∀ a t, x s = .ok a t → (f a).Decides t (Q (view a t)) see) :
    (x >>= f).Decides s (fun d => ∃ c, P c ∧ Q c d) see where
  accepts b u h d := by
    obtain ⟨a, t, hxa, hfa⟩ := bind_eq_ok.1 h
    have hP := hx.accepts a t hxa
    have hQ := (hf a t hxa).accepts b u hfa d
    constructor
    · rintro ⟨c, hc, hd⟩
      rw [(hP c).1 hc] at hd
      exact hQ.1 hd
    · intro hd
      exact ⟨view a t, (hP _).2 rfl, hQ.2 hd⟩
  rejects e u h d := by
    rintro ⟨c, hc, hd⟩
    rcases bind_eq_error.1 h with h | ⟨a, t, hxa, hfa⟩
    · exact hx.rejects e u h c hc
    · rw [(hx.accepts a t hxa c).1 hc] at hd
      exact (hf a t hxa).rejects e u hfa d hd

/-- A lenient action decides a question whose only answer is what is always seen of its end. -/
theorem lenient {c : γ} (hx : x.IsLenient) (hview : ∀ a t, x s = .ok a t → view a t = c) :
    x.Decides s (· = c) view where
  accepts a t h b := by rw [hview a t h]
  rejects d t h := absurd h (hx s d t)

/-- A lenient action in front changes nothing of the question. -/
theorem after {Q : δ → Prop} (hx : x.IsLenient)
    (hf : ∀ a t, x s = .ok a t → (f a).Decides t Q see) : (x >>= f).Decides s Q see where
  accepts b u h := by
    obtain ⟨a, t, hxa, hfa⟩ := bind_eq_ok.1 h
    exact (hf a t hxa).accepts b u hfa
  rejects e u h := by
    rcases bind_eq_error.1 h with h | ⟨a, t, hxa, hfa⟩
    · exact absurd h (hx s e u)
    · exact (hf a t hxa).rejects e u hfa

/-- A lenient action behind changes nothing of the question, if the same is seen after it. -/
theorem before {see : β → State → γ} (hx : x.Decides s P view) (hf : ∀ a, (f a).IsLenient)
    (hsee : ∀ a t b u, x s = .ok a t → f a t = .ok b u → see b u = view a t) :
    (x >>= f).Decides s P see where
  accepts b u h c := by
    obtain ⟨a, t, hxa, hfa⟩ := bind_eq_ok.1 h
    rw [hsee a t b u hxa hfa]
    exact hx.accepts a t hxa c
  rejects e u h := by
    rcases bind_eq_error.1 h with h | ⟨a, t, -, hfa⟩
    · exact hx.rejects e u h
    · exact absurd hfa (hf a t e u)

theorem read {f : State → Lower β} {Q : δ → Prop} (hf : (f s).Decides s Q see) :
    ((get : Lower State) >>= f).Decides s Q see :=
  ⟨fun b u h => hf.accepts b u h, fun d u h => hf.rejects d u h⟩

theorem pure {a : α} {c : γ} (hview : view a s = c) : (pure a : Lower α).Decides s (· = c) view :=
  .lenient (.pure a) fun b t h => by rw [(pure_eq_ok.1 h).1, (pure_eq_ok.1 h).2, hview]

theorem reject (c : Cause) (l : Location) :
    (reject c l : Lower α).Decides s (fun _ => False) view :=
  ⟨fun _ _ h => (reject_eq_ok.1 h).elim, fun _ _ _ _ h => h⟩

/-- A check in front of an action adds a condition to its question. -/
theorem guard {c : Prop} [Decidable c] {cause : Cause} {l : Location}
    (hx : ¬ c → x.Decides s P view) :
    (if c then Lower.reject cause l else x).Decides s (fun b => ¬ c ∧ P b) view := by
  by_cases hc : c
  · rw [if_pos hc]
    exact (reject cause l).congr fun b => by simp [hc]
  · rw [if_neg hc]
    exact (hx hc).congr fun b => by simp [hc]

end Decides

end KuAsm.Lower
