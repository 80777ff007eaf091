import CimSigmoid.Clocked.Handshake
import Mathlib.Data.BitVec

/-!
# The AXI4-Lite slave port

What the master drives on an AXI4-Lite slave port with 5-bit addresses and
32-bit data in one clock cycle, under the port names less `s_axi_`. Both
register wrappers of the project have this port.
-/

namespace CimSigmoid

/-- The master's side of the port in one cycle. -/
structure SAxi where
  awaddr : BitVec 5
  awvalid : Bool
  wdata : BitVec 32
  wstrb : BitVec 4
  wvalid : Bool
  bready : Bool
  araddr : BitVec 5
  arvalid : Bool
  rready : Bool
  deriving DecidableEq, Repr

namespace SAxi

/-- A cycle in which the master asks for nothing and takes every response. -/
def idle : SAxi := ⟨0, false, 0, 0, false, true, 0, false, true⟩

def write (addr : BitVec 5) (data : BitVec 32) : SAxi :=
  { idle with awaddr := addr, awvalid := true, wdata := data, wstrb := 0b1111, wvalid := true }

def read (addr : BitVec 5) : SAxi := { idle with araddr := addr, arvalid := true }

/-- The stream that plays `l` and is idle from then on. -/
def play (l : List SAxi) (t : Nat) : SAxi := l.getD t idle

theorem play_append (l₁ l₂ : List SAxi) (j : Nat) :
    play (l₁ ++ l₂) (l₁.length + j) = play l₂ j := by
  simp [play, List.getElem?_append_right]

theorem play_append_of_lt {l₁ : List SAxi} (l₂ : List SAxi) {j : Nat} (h : j < l₁.length) :
    play (l₁ ++ l₂) j = play l₁ j := by
  simp [play, List.getElem?_append_left h]

theorem play_replicate (k : Nat) (i : SAxi) (t : Nat) :
    play (List.replicate k i) t = if t < k then i else idle := by
  by_cases h : t < k <;> simp [play, h]

end SAxi

structure Write where
  addr : BitVec 5
  data : BitVec 32
  strb : BitVec 4
  deriving DecidableEq, Repr

def SAxi.request (i : SAxi) : Write := ⟨i.awaddr, i.wdata, i.wstrb⟩

def Write.present (r : Write) : SAxi :=
  { SAxi.write r.addr r.data with wstrb := r.strb }

end CimSigmoid
