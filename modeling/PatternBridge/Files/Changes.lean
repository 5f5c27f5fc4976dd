import PatternBridge.Files.Tree

/-!
What differs between two trees.
-/

namespace PatternBridge

structure Change where
  place : Place
  old : Option Entry
  new : Option Entry
  deriving DecidableEq

/-- The places at which two trees differ: those of the new tree in their order, and then those that
are gone. -/
def Tree.changes (old new : Tree) : List Change :=
  let places := new.entries.map Prod.fst ++
    (old.entries.map Prod.fst).filter fun p => (new.get? p).isNone
  let changes := places.map fun p => Change.mk p (old.get? p) (new.get? p)
  changes.filter fun c => c.old != c.new

end PatternBridge
