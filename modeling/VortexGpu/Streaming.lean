import Mathlib.Data.List.Basic

/-!
# Producers with a valid/ready output

A producer offers an item, or none, and moves on when the item is taken. Whatever the pattern of
readiness, what is taken is an initial segment of the items the producer has planned.
-/

namespace Streaming
open List

variable {σ τ : Type} {offer : σ → Option τ} {step : σ → Bool → σ}

def taken (offer : σ → Option τ) (step : σ → Bool → σ) : σ → List Bool → List τ
  | _, [] => []
  | s, ready :: rest =>
    (if ready then (offer s).toList else []) ++ taken offer step (step s ready) rest

inductive Plans (offer : σ → Option τ) (step : σ → Bool → σ) : σ → List τ → Prop
  | done {s : σ} (hnone : offer s = none) : Plans offer step s []
  | item {s : σ} {t : τ} {ts : List τ} (hoffer : offer s = some t)
      (hrest : Plans offer step (step s true) ts) : Plans offer step s (t :: ts)

theorem Plans.taken_eq (hwait : ∀ s, step s false = s)
    (hidle : ∀ s, offer s = none → step s true = s) {s : σ}
    {ts : List τ} (h : Plans offer step s ts) (ready : List Bool) :
    taken offer step s ready = ts.take (ready.count true) := by
  induction ready generalizing s ts with
  | nil => rw [taken, count_nil, take_zero]
  | cons r rest ih =>
    cases r with
    | false => rw [taken, if_neg Bool.false_ne_true, hwait, ih h,
        count_cons_of_ne Bool.false_ne_true, nil_append]
    | true =>
      rw [taken, if_pos rfl, count_cons_self]
      cases h with
      | done hnone => rw [hnone, hidle s hnone, ih (.done hnone), take_nil, take_nil]; rfl
      | item hoffer hrest => rw [hoffer, ih hrest]; rfl

end Streaming
