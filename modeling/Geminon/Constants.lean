import Mathlib.Data.Nat.Basic

namespace Geminon

def geminiHandlerContinue : Int := -1

def geminiHandlerDone : Int := 0

def geminiHandlerAbort : Int := 1

def geminiDefaultPort : Nat := 1965

def geminiMaxRequest : Nat := 8192

def geminiMaxResponse : Nat := 256

def geminiMaxPath : Nat := 2048

def geminiStreamBlockSize : Nat := 8192

abbrev slash : UInt8 := 47

abbrev dot : UInt8 := 46

abbrev colon : UInt8 := 58

/-- The two octets that end a request line and a status line. -/
def crlf : List UInt8 := [13, 10]

end Geminon
