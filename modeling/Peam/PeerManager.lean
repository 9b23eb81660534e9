import Peam.Lib.Locking

/-!
# The mutexes of the peer manager

`PeerManager` has three async mutexes: the connected peers, their scores, and the backoff of banned
peers. A method is listed from its first lock to its last release; a guard that is a temporary of
one statement is released at the end of it, one bound by `let` when the method returns, the last
taken first.
-/

namespace Peam

open Locking

inductive PeerLock where
  | peers
  | scores
  | backoff
  deriving DecidableEq

/-- A call, with what the set of peers answers where the method asks it. -/
inductive PeerCall where
  | connect (inserted : Bool)
  | disconnect (removed : Bool)
  | scoreDelta
  | decayAndPrune
  | score
  | list
  deriving DecidableEq

def PeerCall.ops : PeerCall → List (Op PeerLock)
  | .connect inserted =>
    -- the guard of the peers lives through both inner statements
    guarding .peers .write <|
      if inserted then guarding .scores .write [] ++ guarding .backoff .write [] else []
  | .disconnect removed =>
    guarding .peers .write (if removed then guarding .scores .write [] else [])
  | .scoreDelta => guarding .scores .write []
  | .decayAndPrune =>
    guarding .scores .write (guarding .peers .write (guarding .backoff .write []))
  | .score => guarding .scores .write []
  | .list => guarding .peers .write []

end Peam
