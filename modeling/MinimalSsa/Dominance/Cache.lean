import MinimalSsa.Dominance

/-!
# Remembered analyses

One analysis per head, computed when first asked for and kept. An analysis
depends on the edges alone, so the cache stays right as long as they do; after
an edge has changed it has to be given up.

* `DominanceCache.get`: the analysis of a head, and the cache with it. A failure is
  not kept.
-/

namespace MinimalSsa

/-- The analyses made so far, with their heads. -/
structure DominanceCache where
  entries : List (BlockId × Dominance) := []
  deriving DecidableEq, Inhabited

namespace DominanceCache

/-- The number of heads analysed. -/
def size (cache : DominanceCache) : Nat :=
  cache.entries.length

/-- Has nothing been analysed yet? -/
def isEmpty (cache : DominanceCache) : Bool :=
  cache.entries.isEmpty

/-- The analysis of `head`, computed on `graph` unless it is known. -/
def get (cache : DominanceCache) (graph : Graph) (head : BlockId) :
    Except Failure (Dominance × DominanceCache) :=
  match cache.entries.lookup head with
  | some known => .ok (known, cache)
  | none =>
    match Dominance.compute graph head with
    | .ok found => .ok (found, { entries := (head, found) :: cache.entries })
    | .error failure => .error failure

end DominanceCache

end MinimalSsa
