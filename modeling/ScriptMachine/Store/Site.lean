/-
ScriptMachine.Store.Site — one-entry caches of property accesses.
-/
import ScriptMachine.Shapes

namespace ScriptMachine

inductive SiteKind where
  | get
  | set
deriving DecidableEq

structure Site where
  kind : SiteKind
  cached : Option (ShapeId × Nat) := none
  hits : Nat := 0
  misses : Nat := 0
  updates : Nat := 0
deriving DecidableEq

namespace Site

def hit (site : Site) : Site := { site with hits := site.hits + 1 }

def miss (site : Site) : Site := { site with misses := site.misses + 1 }

def refresh (site : Site) (shape : ShapeId) (slot : Nat) : Site :=
  if site.cached = some (shape, slot) then site
  else { site with cached := some (shape, slot), updates := site.updates + 1 }

end Site

structure CacheStats where
  sites : Nat := 0
  getHits : Nat := 0
  getMisses : Nat := 0
  setHits : Nat := 0
  setMisses : Nat := 0
  updates : Nat := 0
deriving DecidableEq

namespace CacheStats

def add (stats : CacheStats) (site : Site) : CacheStats :=
  match site.kind with
  | .get =>
    { stats with
      sites := stats.sites + 1
      getHits := stats.getHits + site.hits
      getMisses := stats.getMisses + site.misses
      updates := stats.updates + site.updates }
  | .set =>
    { stats with
      sites := stats.sites + 1
      setHits := stats.setHits + site.hits
      setMisses := stats.setMisses + site.misses
      updates := stats.updates + site.updates }

def hitRate (stats : CacheStats) : UInt64 :=
  let hits := UInt64.ofNat (stats.getHits + stats.setHits)
  let total := UInt64.ofNat (stats.getHits + stats.setHits + stats.getMisses + stats.setMisses)
  if total = 0 then 0 else (hits.toFloat / total.toFloat).toBits

end CacheStats

end ScriptMachine
