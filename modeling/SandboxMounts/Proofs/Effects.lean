import Mathlib.Order.Defs.Unbundled
import SandboxMounts.Host.Create

/-!
Effects as functions of the host: how a sequence runs, and what every run of an effect keeps. What is
kept is a preorder on hosts, so that it need only be shown of the single calls.
-/

set_option autoImplicit false

namespace SandboxMounts

theorem except_bind_eq_ok {ε α β : Type} {x : Except ε α} {f : α → Except ε β} {b : β} :
    x >>= f = .ok b ↔ ∃ a, x = .ok a ∧ f a = .ok b := by
  cases x with
  | ok a =>
    constructor
    · exact fun hb => ⟨a, rfl, hb⟩
    · intro hx
      obtain ⟨a', ha, hb⟩ := hx
      cases ha
      exact hb
  | error e =>
    constructor
    · intro hb
      cases hb
    · intro hx
      obtain ⟨a, ha, -⟩ := hx
      cases ha

abbrev Effect (ε α : Type) := ExceptT ε (StateM Host) α

namespace Effect

section

variable {ε α β : Type}

theorem bind_apply (x : Effect ε α) (f : α → Effect ε β) (h : Host) :
    (x >>= f) h = match x h with
      | (.ok a, h') => f a h'
      | (.error e, h') => (.error e, h') := by
  obtain ⟨r, h', hx⟩ : ∃ r h', x h = (r, h') := ⟨_, _, rfl⟩
  cases r with
  | ok a => simp only [bind, ExceptT.bind, ExceptT.mk, StateT.bind, hx, ExceptT.bindCont]
  | error e =>
    simp only [bind, ExceptT.bind, ExceptT.mk, StateT.bind, hx, ExceptT.bindCont]
    rfl

theorem bind_of_ok {x : Effect ε α} {f : α → Effect ε β} {h h' : Host} {a : α}
    (hx : x h = (.ok a, h')) : (x >>= f) h = f a h' := by
  rw [bind_apply, hx]

theorem bind_of_error {x : Effect ε α} {f : α → Effect ε β} {h h' : Host} {e : ε}
    (hx : x h = (.error e, h')) : (x >>= f) h = (.error e, h') := by
  rw [bind_apply, hx]

theorem bind_eq_ok {x : Effect ε α} {f : α → Effect ε β} {h h' : Host} {b : β} :
    (x >>= f) h = (.ok b, h') ↔ ∃ a h₁, x h = (.ok a, h₁) ∧ f a h₁ = (.ok b, h') := by
  constructor
  · intro hb
    obtain ⟨r, h₁, hx⟩ : ∃ r h₁, x h = (r, h₁) := ⟨_, _, rfl⟩
    cases r with
    | ok a => exact ⟨a, h₁, hx, by rw [← hb, bind_of_ok hx]⟩
    | error e =>
      rw [bind_of_error hx] at hb
      cases hb
  · intro hx
    obtain ⟨a, h₁, hx, hf⟩ := hx
    rw [bind_of_ok hx, hf]

theorem bind_eq_error {x : Effect ε α} {f : α → Effect ε β} {h h' : Host} {e : ε} :
    (x >>= f) h = (.error e, h') ↔
      x h = (.error e, h') ∨ ∃ a h₁, x h = (.ok a, h₁) ∧ f a h₁ = (.error e, h') := by
  constructor
  · intro hb
    obtain ⟨r, h₁, hx⟩ : ∃ r h₁, x h = (r, h₁) := ⟨_, _, rfl⟩
    cases r with
    | ok a => exact .inr ⟨a, h₁, hx, by rw [← hb, bind_of_ok hx]⟩
    | error e' =>
      rw [bind_of_error hx] at hb
      cases hb
      exact .inl hx
  · intro hx
    rcases hx with hx | ⟨a, h₁, hx, hf⟩
    · exact bind_of_error hx
    · rw [bind_of_ok hx, hf]

theorem eq_of_isOk {x : Effect ε Unit} {h : Host} (hx : (x h).1.isOk = true) :
    x h = (.ok (), (x h).2) := by
  obtain ⟨r, h', hr⟩ : ∃ r h', x h = (r, h') := ⟨_, _, rfl⟩
  rw [hr] at hx ⊢
  cases r with
  | ok u => rfl
  | error e => cases hx

theorem liftM_apply (x : StateM Host α) (h : Host) :
    (liftM x : Effect ε α) h = (.ok (x h).1, (x h).2) := rfl

theorem ofExcept_apply (r : Except ε α) (h : Host) :
    (MonadExcept.ofExcept r : Effect ε α) h = (r, h) := by
  cases r <;> rfl

theorem ofExcept_eq_ok {r : Except ε α} {h h' : Host} {a : α} :
    (MonadExcept.ofExcept r : Effect ε α) h = (.ok a, h') ↔ r = .ok a ∧ h' = h := by
  cases r with
  | ok b =>
    constructor
    · intro ho
      cases ho
      exact ⟨rfl, rfl⟩
    · intro ho
      obtain ⟨hb, rfl⟩ := ho
      cases hb
      rfl
  | error e =>
    constructor
    · intro he
      cases he
    · intro he
      cases he.1

theorem orFail_of_ok {x : Call α} {f : IoError → Error} {h h' : Host} {a : α}
    (hx : x h = (.ok a, h')) : x.orFail f h = (.ok a, h') := by
  simp [Call.orFail, hx]

theorem orFail_of_error {x : Call α} {f : IoError → Error} {h h' : Host} {e : IoError}
    (hx : x h = (.error e, h')) : x.orFail f h = (.error (f e), h') := by
  simp [Call.orFail, hx]

theorem orFail_eq_ok {x : Call α} {f : IoError → Error} {h h' : Host} {a : α} :
    x.orFail f h = (.ok a, h') ↔ x h = (.ok a, h') := by
  obtain ⟨r, h₁, hx⟩ : ∃ r h₁, x h = (r, h₁) := ⟨_, _, rfl⟩
  cases r with
  | ok b =>
    rw [orFail_of_ok hx, hx]
    constructor <;> intro ho <;> cases ho <;> rfl
  | error e =>
    rw [orFail_of_error hx, hx]
    constructor <;> intro he <;> cases he

theorem orFail_fst (x : Call α) (f : IoError → Error) (h : Host) :
    (x.orFail f h).1 = (x h).1.mapError f := by
  obtain ⟨r, h', hx⟩ : ∃ r h', x h = (r, h') := ⟨_, _, rfl⟩
  rw [Call.orFail, hx]
  cases r <;> rfl

theorem orFail_snd (x : Call α) (f : IoError → Error) (h : Host) : (x.orFail f h).2 = (x h).2 := by
  unfold Call.orFail
  split <;> simp [*]

theorem discard_of_ok {x : Effect ε α} {h h' : Host} {a : α} (hx : x h = (.ok a, h')) :
    (discard x : Effect ε PUnit) h = (.ok (), h') := by
  change (x >>= fun _ => pure ()) h = _
  rw [bind_of_ok hx]
  rfl

theorem outcome_apply (x : Call α) (h : Host) : x.outcome h = (.ok (x h).1, (x h).2) := rfl

theorem outcome_of_eq {x : Call α} {h h' : Host} {r : Except IoError α} (hx : x h = (r, h')) :
    x.outcome h = (.ok r, h') := by
  rw [outcome_apply, hx]

end

/-- Every run of `x` leads from a host to one that `R` relates it to. -/
def Keeps {ε α : Type} (R : Host → Host → Prop) (x : Effect ε α) : Prop := ∀ h, R h (x h).2

namespace Keeps

section

variable {ε α β : Type} {R : Host → Host → Prop}

theorem ite {c : Prop} [Decidable c] {x y : Effect ε α} (hx : Keeps R x) (hy : Keeps R y) :
    Keeps R (if c then x else y) := by
  split
  · exact hx
  · exact hy

theorem outcome {x : Call α} (hx : Keeps R x) : Keeps R x.outcome := hx

theorem orFail {x : Call α} {f : IoError → Error} (hx : Keeps R x) : Keeps R (x.orFail f) := by
  intro h
  rw [orFail_snd]
  exact hx h

variable [IsPreorder Host R]

theorem pure (a : α) : Keeps R (Pure.pure a : Effect ε α) := fun h => refl_of R h

theorem throw (e : ε) : Keeps R (MonadExcept.throw e : Effect ε α) := fun h => refl_of R h

theorem bind {x : Effect ε α} {f : α → Effect ε β} (hx : Keeps R x) (hf : ∀ a, Keeps R (f a)) :
    Keeps R (x >>= f) := by
  intro h
  have hR := hx h
  rw [bind_apply]
  obtain ⟨r, h', hxh⟩ : ∃ r h', x h = (r, h') := ⟨_, _, rfl⟩
  rw [hxh] at hR
  cases r with
  | ok a => simpa [hxh] using trans_of R hR (hf a h')
  | error e => simpa [hxh] using hR

theorem ofExcept (r : Except ε α) : Keeps R (MonadExcept.ofExcept r : Effect ε α) := by
  cases r with
  | ok a => exact pure a
  | error e => exact throw e

theorem refuseNul (p : Path) (e : IoError) : Keeps R (Host.refuseNul p e) :=
  ite (throw e) (pure ())

theorem look (f : Host → Except Errno α) : Keeps R (Host.look f) := by
  intro h
  unfold Host.look
  split <;> exact refl_of R h

theorem meetFault (hR : ∀ (h : Host) (faults : List Fault), R h { h with faults }) (k : CallKind)
    (p : Path) : Keeps R (Host.meetFault k p) := by
  intro h
  unfold Host.meetFault
  split
  · exact hR h _
  · exact refl_of R h

theorem change {f : Host → Except Errno Host} (hf : ∀ h h', f h = .ok h' → R h h') :
    Keeps R (Host.change f) := by
  intro h
  unfold Host.change
  split
  · exact hf h _ ‹_›
  · exact refl_of R h

theorem mkdirOrFind {p : Path} (hm : Keeps R (Host.mkdir p)) : Keeps R (Host.mkdirOrFind p) := by
  refine bind (outcome hm) fun r => ?_
  split
  · exact look _
  · exact throw _
  · exact pure ()

theorem mkdirs {ps : List Path} (hm : ∀ p ∈ ps, Keeps R (Host.mkdir p)) : Keeps R (Host.mkdirs ps) := by
  induction ps with
  | nil => exact pure ()
  | cons p above ih =>
    obtain ⟨hp, habove⟩ := List.forall_mem_cons.1 hm
    unfold Host.mkdirs
    refine ite (pure ()) (bind (outcome (mkdirOrFind hp)) fun r => ?_)
    split
    · exact bind (ih habove) fun _ => mkdirOrFind hp
    · exact throw _
    · exact pure ()

end

end Keeps

end Effect

end SandboxMounts
