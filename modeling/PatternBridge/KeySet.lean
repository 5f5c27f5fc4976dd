import PatternBridge.Text.Blank

/-!
Sets of keys with values, in the order in which they were added.
-/

namespace PatternBridge

structure KeySet where
  pairs : List (Text × Text) := []
  nodup : (pairs.map Prod.fst).Nodup := by simp

namespace KeySet

def keys (k : KeySet) : List Text := k.pairs.map Prod.fst

def has (k : KeySet) (key : Text) : Bool := k.keys.contains key

/-- Adds a pair, unless its key is there already. -/
def insert (k : KeySet) (pair : Text × Text) : KeySet :=
  if h : k.has pair.1 then k
  else {
    pairs := k.pairs ++ [pair]
    nodup := by
      have hk : pair.1 ∉ k.pairs.map Prod.fst := by simpa [has, keys] using h
      rw [List.map_append, List.nodup_append]
      refine ⟨k.nodup, by simp, ?_⟩
      rintro a ha b hb rfl
      simp at hb
      exact hk (hb ▸ ha) }

def ofPairs (pairs : List (Text × Text)) : KeySet := pairs.foldl insert {}

end KeySet

end PatternBridge
