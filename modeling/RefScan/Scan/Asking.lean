import RefScan.Source

/-!
# Programs that ask

A scan does not see where its bytes, names and verdicts come from: it asks one question after the
other and goes on by the answers. `Asking.eval` is what comes of that with fixed answers.
-/

namespace RefScan

/-- What a scan needs from outside. An exclusion may go by the types that it was asked about
earlier, latest first. -/
inductive Request where
  | load (t : TypeName)
  | resolve (name : String)
  | exclude (earlier : List TypeName) (t : TypeName)
deriving DecidableEq, Repr

abbrev Request.Answer : Request → Type
  | load _ => Except LoadError Bytes
  | resolve _ => Except ResolveError TypeName
  | exclude _ _ => Bool

inductive Asking (α : Type) where
  | done (a : α)
  | ask (r : Request) (next : r.Answer → Asking α)

namespace Asking

def bind : Asking α → (α → Asking β) → Asking β
  | done a, f => f a
  | ask r next, f => ask r fun x => (next x).bind f

instance : Monad Asking where
  pure := done
  bind := bind

def eval (answer : (r : Request) → r.Answer) : Asking α → α
  | done a => a
  | ask r next => (next (answer r)).eval answer

end Asking

end RefScan
