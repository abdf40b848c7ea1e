import Tierstore.Lib.Runs
import Tierstore.Stack

/-! What a client does with a router: operations one after the other, and the plain map the
client has in mind. -/
namespace Tierstore
open Overlay Effects

inductive RouterOp (K V : Type) where
  | get (key : K)
  | exists_ (key : K)
  | readMany (keys : List K)
  | put (key : K) (value : V)
  | putMany (entries : List (K × V))
  | delete (key : K)
  | removeMany (keys : List K)

namespace RouterOp
variable {K V : Type}

def written : RouterOp K V → List (K × V)
  | .put key value => [(key, value)]
  | .putMany entries => entries
  | _ => []

variable [DecidableEq K]

/-- The operation on a plain map; the last entry of a key in a batch counts. -/
def applyTo (m : K → Option V) : RouterOp K V → K → Option V
  | .get _ => m
  | .exists_ _ => m
  | .readMany _ => m
  | .put key value => write m [(key, value)]
  | .putMany entries => write m entries
  | .delete key => erase m key
  | .removeMany keys => eraseAll m keys

def logical (ops : List (RouterOp K V)) : K → Option V := ops.foldl applyTo empty

end RouterOp

namespace Stack
variable {T K V E : Type} {n : Nat} [Tier T K V E]

def perform (r : Router n) (s : Stack T n) : RouterOp K V → Stack T n
  | .get key => (run (r.get key) s).2
  | .exists_ key => (run (r.exists_ key) s).2
  | .readMany keys => (run (r.readMany keys) s).2
  | .put key value => (run (r.put key value) s).2
  | .putMany entries => (run (r.putMany entries) s).2
  | .delete key => (run (r.delete key) s).2
  | .removeMany keys => (run (r.removeMany keys) s).2

def Calling (ok : Query n K V → Stack T n → Prop) (r : Router n) (s : Stack T n) :
    RouterOp K V → Prop
  | .get key => (r.get key).Always exec ok s
  | .exists_ key => (r.exists_ key).Always exec ok s
  | .readMany keys => (r.readMany keys).Always exec ok s
  | .put key value => (r.put key value).Always exec ok s
  | .putMany entries => (r.putMany entries).Always exec ok s
  | .delete key => (r.delete key).Always exec ok s
  | .removeMany keys => (r.removeMany keys).Always exec ok s

instance decideCalling {ok : Query n K V → Stack T n → Prop} [∀ q s, Decidable (ok q s)]
    (r : Router n) (s : Stack T n) : (op : RouterOp K V) → Decidable (Calling ok r s op)
  | .get key => inferInstanceAs (Decidable ((r.get key).Always exec ok s))
  | .exists_ key => inferInstanceAs (Decidable ((r.exists_ key).Always exec ok s))
  | .readMany keys => inferInstanceAs (Decidable ((r.readMany keys).Always exec ok s))
  | .put key value => inferInstanceAs (Decidable ((r.put key value).Always exec ok s))
  | .putMany entries => inferInstanceAs (Decidable ((r.putMany entries).Always exec ok s))
  | .delete key => inferInstanceAs (Decidable ((r.delete key).Always exec ok s))
  | .removeMany keys => inferInstanceAs (Decidable ((r.removeMany keys).Always exec ok s))

theorem calling_of_forall {ok : Query n K V → Stack T n → Prop} (hok : ∀ q s, ok q s)
    (r : Router n) (s : Stack T n) (op : RouterOp K V) : Calling ok r s op := by
  cases op <;> exact Program.always_of_forall exec hok _ s

def performAll (r : Router n) (s : Stack T n) (ops : List (RouterOp K V)) : Stack T n :=
  ops.foldl (perform r) s

end Stack
end Tierstore
