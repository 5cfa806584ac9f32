import Mathlib.Tactic

/-!
# Status codes

`HRESULT` is a 32-bit signed integer; the sign bit says whether the call failed.
-/

namespace IW4x.Gdk

abbrev HResult := BitVec 32

def succeeded (hr : HResult) : Bool := !hr.msb

def failed (hr : HResult) : Bool := hr.msb

@[simp] theorem succeeded_eq_not_failed (hr : HResult) : succeeded hr = !failed hr := rfl

def S_OK : HResult := 0x00000000
def E_ABORT : HResult := 0x80004004
def E_FAIL : HResult := 0x80004005
def E_POINTER : HResult := 0x80004003
def E_UNEXPECTED : HResult := 0x8000FFFF
def E_OUTOFMEMORY : HResult := 0x8007000E
def E_INVALIDARG : HResult := 0x80070057

/-- `E_PENDING`. -/
def pending : HResult := 0x8000000A

/-- `HRESULT_FROM_WIN32 (ERROR_INSUFFICIENT_BUFFER)`. -/
def insufficientBuffer : HResult := 0x8007007A

@[simp] theorem failed_S_OK : failed S_OK = false := by decide

end IW4x.Gdk
