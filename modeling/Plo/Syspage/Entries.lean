import Plo.Syspage.Maps

/-!
Placement of entries in maps. A caller names a map and lets the best fit choose
the place, names a map and an offset in it, or gives an absolute address alone.
-/
namespace Plo.Syspage
variable {w : Nat} {σ : Type}

/-- The accumulators `bestStart` and `bestSz` of `syspage_bestFit`. -/
structure Best (w : Nat) where
  start : BitVec w
  sz : BitVec w
  deriving DecidableEq, Repr

/-- `tempSz < bestSz && tempSz >= size`, for the gap from `tempStart` to `limit`. -/
def Best.offer (best : Best w) (size tempStart limit : BitVec w) : Best w :=
  let tempSz := limit - tempStart
  if tempSz < best.sz ∧ tempSz ≥ size then ⟨tempStart, tempSz⟩ else best

/-- The gap before an entry is offered unless the entry overlaps the candidate. -/
def Best.turn (best : Best w) (size tempStart : BitVec w) (e : MapEnt w) : Best w :=
  if ¬ (e.start < tempStart + size ∧ e.end_ > tempStart) then
    best.offer size tempStart e.start
  else best

/-- The loop of `syspage_bestFit` over the entries, with `tempStart` as cursor. -/
def bestFitLoop (size : BitVec w) (align : BitVec 32) :
    List (MapEnt w) → BitVec w → Best w → Best w
  | [], _, best => best
  | e :: es, tempStart, best =>
    bestFitLoop size align es (alignAddr e.end_ align) (best.turn size tempStart e)

def bestFit (map : SysMap w) (size : BitVec w) (align : BitVec 32) : Option (BitVec w) :=
  match map.entries.getLast? with
  | none => some (alignAddr map.start align)
  | some last =>
    let best := bestFitLoop size align map.entries (alignAddr map.start align) ⟨-1, -1⟩
    let best := best.offer size (alignAddr last.end_ align) map.end_
    if best.sz = -1 ∨ best.start = -1 then none else some best.start

/-- The map an entry goes to: the named one, or the first that contains the range. -/
def entryMap (s : Common w σ) (mapName : Option CString) (start size : BitVec w) :
    Option Nat :=
  match mapName with
  | none => s.maps.findIdx? (fun map => map.start ≤ start ∧ map.end_ ≥ start + size)
  | some name => s.maps.findIdx? (fun map => name = map.name)

/-- The start address chosen in `map`, or nothing when the request is refused. -/
def entryPlace (map : SysMap w) (mapName : Option CString) (start size : BitVec w)
    (align : BitVec 32) : Option (BitVec w) :=
  if mapName ≠ none ∧ start = -1 then bestFit map size align
  else
    let start := alignAddr (if mapName = none then start else map.start + start) align
    if map.entries.any (fun entry => entry.start < start + size ∧ entry.end_ > start) then none
    else some start

def entryAdd (p : Platform w σ) (s : Common w σ) (mapName : Option CString)
    (start size : BitVec w) (align : BitVec 32) : Common w σ × Option (MapEnt w) :=
  match entryMap s mapName start size with
  | none => (s, none)
  | some i =>
    match s.maps[i]? with
    | none => (s, none)
    | some map =>
      match entryPlace map mapName start size align with
      | none => (s, none)
      | some start =>
        match alloc p s p.sizeofMapent with
        | none => (s, none)
        | some (_, s) =>
          let newEntry : MapEnt w := ⟨start, start + size, .allocated⟩
          let map := { map with entries := sortedInsert map.entries newEntry }
          ({ s with maps := s.maps.set i map }, some newEntry)

end Plo.Syspage
