import Mathlib.Data.List.Basic

/-!
# Transducers

A transducer reads one symbol at a time, emits some symbols and moves to its next state.
-/

namespace MiniOs

variable {σ α β : Type}

/-- What a transducer emits on a word, and the state it ends in. -/
def feed (step : σ → α → List β × σ) : σ → List α → List β × σ
  | s, [] => ([], s)
  | s, a :: as =>
      let (out, s) := step s a
      let (out', s) := feed step s as
      (out ++ out', s)

theorem feed_cons (step : σ → α → List β × σ) (s : σ) (a : α) (as : List α) :
    feed step s (a :: as) =
      ((step s a).1 ++ (feed step (step s a).2 as).1, (feed step (step s a).2 as).2) := rfl

/-- The state is carried from one piece of a word to the next. -/
theorem feed_append (step : σ → α → List β × σ) (s : σ) (as bs : List α) :
    feed step s (as ++ bs) = ((feed step s as).1 ++ (feed step (feed step s as).2 bs).1,
      (feed step (feed step s as).2 bs).2) := by
  induction as generalizing s with
  | nil => rfl
  | cons a as ih => rw [List.cons_append, feed_cons, feed_cons, ih, List.append_assoc]

end MiniOs
