import Mathlib.Logic.Basic

/-!
# Interleaved processes with rely and guarantee

A process is a tree of calls: it makes a call, another part of the system
answers, and the process goes on with the answer. Between two of its calls
anything the environment may do can happen.

`Wp inv rely guar step p Q s` says that, from the shared state `s` on, whatever
the environment does within `rely`, every call of `p` keeps `inv`, stays within
`guar`, and `Q` holds of the result while `p` is finished.

* `Wp.stable`: what the environment does keeps `Wp`.
* `Wp.call`: one call, from what the call does in a state that satisfies `inv`.
* `Wp.bind`, `Wp.mono`, `Wp.pure`: the rules of composition.
* `Wp.next`: a process that makes a call keeps `inv`, stays within `guar` and
  keeps `Wp`, which is the step case of an invariant of the whole system.
-/

namespace RelyGuarantee

/-- A process making calls `C`, answered by `R`, with a result in `A`. -/
inductive Process (C R A : Type) where
  | ret (a : A)
  | call (c : C) (next : R → Process C R A)

namespace Process

variable {C R A B : Type}

def bind : Process C R A → (A → Process C R B) → Process C R B
  | ret a, f => f a
  | call c next, f => call c fun r => (next r).bind f

instance : Monad (Process C R) where
  pure := ret
  bind := bind

/-- A single call. -/
def sys (c : C) : Process C R R := call c ret

@[simp] theorem pure_eq (a : A) : (pure a : Process C R A) = ret a := rfl

@[simp] theorem bind_eq (p : Process C R A) (f : A → Process C R B) : p >>= f = p.bind f := rfl

@[simp] theorem sys_bind (c : C) (f : R → Process C R B) : (sys c).bind f = call c f := rfl

/-- The result of a process and the number of its next call, when its first call is
    number `k` and call `i` is answered with `reply i`. -/
def eval (reply : Nat → R) : Process C R A → Nat → A × Nat
  | ret a, k => (a, k)
  | call _ next, k => (next (reply k)).eval reply (k + 1)

theorem eval_bind (reply : Nat → R) (p : Process C R A) (f : A → Process C R B) (k : Nat) :
    (p.bind f).eval reply k = (f (p.eval reply k).1).eval reply (p.eval reply k).2 := by
  induction p generalizing k with
  | ret a => rfl
  | call c next ih => exact ih _ _

end Process

open Process

variable {C R A B S : Type} (inv : S → Prop) (rely guar : S → S → Prop)
  (step : C → S → R → S → Prop)

/-- The weakest precondition of a process among others. -/
def Wp : Process C R A → (A → S → Prop) → S → Prop
  | ret a, Q, s => ∀ s', rely s s' → inv s' → Q a s'
  | call c next, Q, s => ∀ s', rely s s' → inv s' → ∀ r s'', step c s' r s'' →
      inv s'' ∧ guar s' s'' ∧ Wp (next r) Q s''

/-- What the rules need of a rely: doing nothing and doing two things are allowed. -/
structure Interference (rely : S → S → Prop) : Prop where
  refl : ∀ s, rely s s
  trans : ∀ {s t u}, rely s t → rely t u → rely s u

variable {inv rely guar step}

theorem Wp.stable (hrely : Interference rely) {p : Process C R A} {Q : A → S → Prop} {s s' : S}
    (h : Wp inv rely guar step p Q s) (hs : rely s s') : Wp inv rely guar step p Q s' := by
  cases p with
  | ret a => exact fun t ht => h t (hrely.trans hs ht)
  | call c next => exact fun t ht => h t (hrely.trans hs ht)

theorem Wp.mono {p : Process C R A} {Q Q' : A → S → Prop} {s : S}
    (h : Wp inv rely guar step p Q s) (hQ : ∀ a s', inv s' → Q a s' → Q' a s') :
    Wp inv rely guar step p Q' s := by
  induction p generalizing s with
  | ret a => exact fun t ht hi => hQ a t hi (h t ht hi)
  | call c next ih =>
    intro t ht hi r u hu
    obtain ⟨hinv, hguar, hnext⟩ := h t ht hi r u hu
    exact ⟨hinv, hguar, ih r hnext⟩

theorem Wp.pure {a : A} {Q : A → S → Prop} {s : S} (h : ∀ s', rely s s' → inv s' → Q a s') :
    Wp inv rely guar step (ret a) Q s := h

/-- **Sequencing.** -/
theorem Wp.bind (hrely : Interference rely) {p : Process C R A} {f : A → Process C R B}
    {Q : B → S → Prop} {s : S}
    (h : Wp inv rely guar step p (fun a s' => Wp inv rely guar step (f a) Q s') s) :
    Wp inv rely guar step (p.bind f) Q s := by
  induction p generalizing s with
  | ret a =>
    -- What the environment does before `f` starts is absorbed by `f`'s own rely.
    have hf : ∀ t, rely s t → inv t → Wp inv rely guar step (f a) Q t := h
    show Wp inv rely guar step (f a) Q s
    cases hfa : f a with
    | ret b =>
      intro t ht hi
      have := hf t ht hi
      rw [hfa] at this
      exact this t (hrely.refl t) hi
    | call c next =>
      intro t ht hi
      have := hf t ht hi
      rw [hfa] at this
      exact this t (hrely.refl t) hi
  | call c next ih =>
    intro t ht hi r u hu
    obtain ⟨hinv, hguar, hnext⟩ := h t ht hi r u hu
    exact ⟨hinv, hguar, ih r hnext⟩

/-- **One call.** -/
theorem Wp.call {c : C} {next : R → Process C R A} {Q : A → S → Prop} {s : S}
    (h : ∀ s', rely s s' → inv s' → ∀ r s'', step c s' r s'' →
      inv s'' ∧ guar s' s'' ∧ Wp inv rely guar step (next r) Q s'') :
    Wp inv rely guar step (.call c next) Q s := h

/-- **A process makes a call.** -/
theorem Wp.next (hrely : Interference rely) {c : C} {next : R → Process C R A} {Q : A → S → Prop}
    {s s' : S} {r : R} (h : Wp inv rely guar step (.call c next) Q s) (hs : inv s)
    (hc : step c s r s') : inv s' ∧ guar s s' ∧ Wp inv rely guar step (next r) Q s' :=
  h s (hrely.refl s) hs r s' hc

theorem Wp.result (hrely : Interference rely) {a : A} {Q : A → S → Prop} {s : S}
    (h : Wp inv rely guar step (ret a : Process C R A) Q s) (hs : inv s) : Q a s :=
  h s (hrely.refl s) hs

end RelyGuarantee
