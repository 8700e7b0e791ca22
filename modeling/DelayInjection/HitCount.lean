namespace DelayInjection

-- The hit counts at which a plan was recorded. A negative count means that any count will do.
structure HitCount where
  localHits : Int64 := -1
  globalHits : Int64 := -1
deriving DecidableEq

namespace HitCount

-- The distance is a word too: for counts below zero it can wrap around.
def near (recorded live window : Int64) : Bool :=
  recorded < 0 || (live - recorded).abs ≤ window

def accepts (record : HitCount) (localHits localWindow globalHits globalWindow : Int64) : Bool :=
  near record.localHits localHits localWindow && near record.globalHits globalHits globalWindow

end HitCount

end DelayInjection
