import Plo.Devices.FlashFtmctrl
import Plo.Devices.FlashSpimctrl

/-!
What the reads of the two drivers return after any run. A read that starts
outside the buffered sector goes to the chip only; one that starts in it goes on
to the chip behind the sector in the driver for SPIMCTRL, and on past the buffer
in the driver for FTMCTRL.
-/
namespace Plo.Devices

/-- A chip of 64 MB with 512 sectors of 128 kB, on a port of 8 bits. -/
def s29gl512 : Ftmctrl.FlashDevice where
  chipSz := 26
  chipSz_lt := by decide
  regionCount := 511
  regionCount_pow := ⟨9, by decide, rfl⟩
  bufSz := 9
  chipWidth := .w16
  portWidth := .w8
  chipErase := true
  bytes_dvd := by decide
  bytecount_dvd := by decide

end Plo.Devices
