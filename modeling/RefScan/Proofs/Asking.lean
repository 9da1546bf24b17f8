import RefScan.Scan.Asking

/-!
# Laws of asking programs

With fixed answers a program comes to one value by one list of questions, and both go along with
doing one thing after the other.
-/

namespace RefScan.Asking

variable {answer : (r : Request) → r.Answer} {m : Asking α}

def requests (answer : (r : Request) → r.Answer) : Asking α → List Request
  | done _ => []
  | ask r next => r :: (next (answer r)).requests answer

@[simp] theorem eval_pure (a : α) : (pure a : Asking α).eval answer = a := rfl

@[simp] theorem requests_pure (a : α) : (pure a : Asking α).requests answer = [] := rfl

@[simp] theorem eval_bind (m : Asking α) (f : α → Asking β) :
    (m >>= f).eval answer = (f (m.eval answer)).eval answer := by
  induction m with
  | done a => rfl
  | ask r next ih => exact ih (answer r)

@[simp] theorem requests_bind (m : Asking α) (f : α → Asking β) :
    (m >>= f).requests answer = m.requests answer ++ (f (m.eval answer)).requests answer := by
  induction m with
  | done a => rfl
  | ask r next ih => exact congrArg (r :: ·) (ih (answer r))

end RefScan.Asking
