import Mathlib.Data.List.Basic
import Plo.Base.Run
import Plo.Base.Word
import Plo.Lib.Types

/-!
Encrypted regions of the memories behind the xSPI controllers of STM32. A memory is
accessed through two devices, one for what is not encrypted and one for what is.
The table of regions says which of them may make an access; a region gets into the
table when the memory encryption was configured for it. The number of regions is
left open, as are the results of the memory encryption.
-/
namespace Plo.Devices.Xspi

/-- `struct encr_region`. -/
structure EncrRegion where
  enabled : Bool
  granularity : Nat
  start : Nat
  stop : Nat

/-- A controller: whether it is in use, and the size of its memory. -/
structure Ctrl where
  enabled : Bool
  memSize : Nat
  memSize_lt : memSize < 2 ^ 32

/-- The bounds in `dev_memcrypt_args_t`. -/
structure MemcryptArgs where
  start : UInt32
  stop : UInt32

abbrev Table := List EncrRegion

/-- The range goes over a bound of the region. -/
def EncrRegion.crossed (r : EncrRegion) (off stop : Nat) : Bool :=
  (off < r.start && r.start < stop) || (off < r.stop && r.stop < stop)

def EncrRegion.holds (r : EncrRegion) (off stop : Nat) : Bool := r.start ≤ off && stop ≤ r.stop

/-- The number of the region that holds the range, the number of regions if none is
concerned, and `-1` if the range goes over a bound; from region `i` on. -/
def xspidrvGetRegion (off stop : Nat) : Nat → Table → Int
  | i, [] => i
  | i, r :: rs =>
    if r.enabled = false then xspidrvGetRegion off stop (i + 1) rs
    else if r.crossed off stop then -1
    else if r.holds off stop then i
    else xspidrvGetRegion off stop (i + 1) rs

variable (ctrl : Ctrl)

def xspidrvValidateAndGetRegion (table : Table) (off size : UInt32) (encrypted : Bool) : Int :=
  let stop := (off.toNat + size.toNat) % 2 ^ 32
  if ctrl.enabled = false then - EINVAL
  else if stop < off.toNat then - EINVAL
  else if ¬(off.toNat < ctrl.memSize ∧ stop ≤ ctrl.memSize) then - EINVAL
  else
    let region := xspidrvGetRegion off.toNat stop 0 table
    if region < 0 then - EINVAL
    else if (region == (table.length : Int)) != (encrypted == false) then - EINVAL
    else region

/-- What the memory encryption answers to a request: the results of
`mce_configureRegion` and `mce_getGranularity`. -/
structure MceResults where
  configured : Int
  granularity : Int

def xspidrvMemcrypt (table : Table) (args : MemcryptArgs) (mce : MceResults) : Table × Int :=
  if args.stop ≤ args.start then (table, - EINVAL)
  else if xspidrvValidateAndGetRegion ctrl table args.start (args.stop - args.start) false < 0 then
    (table, - EINVAL)
  else
    let reg := table.findIdx fun r => !r.enabled
    if table.length ≤ reg then (table, - ENOMEM)
    else if mce.configured < 0 then (table, mce.configured)
    else if mce.granularity < 0 then (table, mce.granularity)
    else
      (table.set reg
        { enabled := true
          granularity := mce.granularity.toNat
          start := args.start.toNat
          stop := args.stop.toNat }, EOK)

/-- The region of an accepted read, or the error. -/
def xspidrvRead (table : Table) (offs len : UInt32) (encrypted : Bool) : Except Int Nat :=
  let region := xspidrvValidateAndGetRegion ctrl table offs len encrypted
  if region < 0 then .error (- EINVAL) else .ok region.toNat

/-- The region of an accepted write, or the error. -/
def xspidrvWrite (table : Table) (offs len : UInt32) (encrypted : Bool) : Except Int Nat :=
  let region := xspidrvValidateAndGetRegion ctrl table offs len encrypted
  if region < 0 then .error (- EINVAL)
  else
    match table[region.toNat]? with
    | none => .ok region.toNat
    | some r =>
      if 1 < r.granularity ∧ (offs.toNat % r.granularity ≠ 0 ∨ len.toNat % r.granularity ≠ 0) then
        .error (- EINVAL)
      else .ok region.toNat

end Plo.Devices.Xspi
