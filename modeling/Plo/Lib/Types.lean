import Mathlib.Data.List.TakeWhile

/-!
C data that several parts of the loader share: error codes and NUL-terminated
strings. A function that returns an `int` in the source returns an `Int` here,
negative on error.
-/
namespace Plo

def EOK : Int := 0
def EPERM : Int := 1
def EIO : Int := 5
def ENXIO : Int := 6
def ENOMEM : Int := 12
def ENODEV : Int := 19
def EINVAL : Int := 22
def ENOSPC : Int := 28

/-- The bytes of a C string before its terminating NUL. -/
@[ext] structure CString where
  bytes : List UInt8
  noNul : 0 ∉ bytes
  deriving DecidableEq

/-- The string that starts at the beginning of a buffer. -/
def CString.ofBuffer (buf : List UInt8) : CString where
  bytes := buf.takeWhile (· ≠ 0)
  noNul := by
    intro h
    have h0 := List.mem_takeWhile_imp h
    simp at h0

theorem ofBuffer_append {name : List UInt8} (h : 0 ∉ name) (rest : List UInt8) :
    (CString.ofBuffer (name ++ 0 :: rest)).bytes = name := by
  simp only [CString.ofBuffer]
  rw [List.takeWhile_append_of_pos]
  · simp
  · intro c hc
    exact decide_eq_true (fun h0 => h (h0 ▸ hc))

end Plo
