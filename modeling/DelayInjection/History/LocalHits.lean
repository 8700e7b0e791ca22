import DelayInjection.Table

namespace DelayInjection

structure LocalHits where
  counts : Table String Int64 := .empty

namespace LocalHits

def get (hits : LocalHits) (location : String) : Int64 := (hits.counts.get? location).getD 0

-- Counts a hit and tells how many came before it.
def next (hits : LocalHits) (location : String) : Int64 × LocalHits :=
  (hits.get location, { counts := hits.counts.insert location (hits.get location + 1) })

end LocalHits

end DelayInjection
