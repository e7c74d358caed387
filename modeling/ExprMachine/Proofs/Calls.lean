/-! Calls in any order: what each of them is answered, and the state after the last one. -/

namespace ExprMachine

namespace Calls

variable {σ τ κ α : Type}

def run (answer : σ → κ → α × σ) (s : σ) : List κ → List α × σ
  | [] => ([], s)
  | call :: calls =>
    let (first, s) := answer s call
    let (rest, s) := run answer s calls
    (first :: rest, s)

variable {answer : σ → κ → α × σ}

theorem run_cons (s : σ) (call : κ) (calls : List κ) :
    run answer s (call :: calls) =
      ((answer s call).1 :: (run answer (answer s call).2 calls).1,
        (run answer (answer s call).2 calls).2) := rfl

/-- What holds of a state and survives each call survives all of them. -/
theorem run_keeps {p : σ → Prop} (hstep : ∀ s call, p s → p (answer s call).2) {s : σ} (h : p s)
    (calls : List κ) : p (run answer s calls).2 := by
  induction calls generalizing s with
  | nil => exact h
  | cons call calls ih => exact ih (hstep s call h)

/-- States that answer each call as their views do answer all calls so. -/
theorem run_view {answer' : τ → κ → α × τ} {view : σ → τ}
    (hstep : ∀ s call, answer' (view s) call = ((answer s call).1, view (answer s call).2))
    (s : σ) (calls : List κ) :
    run answer' (view s) calls = ((run answer s calls).1, view (run answer s calls).2) := by
  induction calls generalizing s with
  | nil => rfl
  | cons call calls ih => simp only [run, hstep, ih]

end Calls

end ExprMachine
