import Mathlib.Data.BitVec

/-!
# The two sigmoid cores

`sigmoid` is the function the Azevedo core (`16 bit Azevedo/sigmoid.v`)
stores at a rising edge: constant, linear and quadratic pieces in Q4.12. The
parameters are 32-bit signed, so the 16-bit `x` and `tmp_3` are sign-extended,
products and sums are 32-bit, and a piece's result is the slice `[27:12]`.

`sigmoide` is the function of the Vaisnav core's process
(`fast_Vaisnav16/sigmoid.vhdl`, constants of `pck_definitions.vhdl`): shifts
and adds on `abs x` in the wrapping 16-bit arithmetic of `numeric_std`,
reflected for negative `x`.
-/

namespace CimSigmoid.Sigmoid

/-! ## Azevedo -/

def xInf : BitVec 32 := BitVec.ofInt 32 (-22282)
def xMin : BitVec 32 := BitVec.ofInt 32 (-13312)
def xMed : BitVec 32 := 0
def xMax : BitVec 32 := 13312
def xSup : BitVec 32 := 22282

def zero : BitVec 32 := 0
def one : BitVec 32 := 4096

def p2k1 : BitVec 32 := 58
def p2k0 : BitVec 32 := 314
def p3k2 : BitVec 32 := 165
def p3k1 : BitVec 32 := 1116
def p3k0 : BitVec 32 := 2057
def p4k2 : BitVec 32 := BitVec.ofInt 32 (-165)
def p4k1 : BitVec 32 := 1116
def p4k0 : BitVec 32 := 2039
def p5k1 : BitVec 32 := 58
def p5k0 : BitVec 32 := 3782

/-- A linear piece: `tmp = K1 * x + K0 * ONE`, then `tmp[27:12]`. -/
def linear (k1 k0 : BitVec 32) (x : BitVec 16) : BitVec 16 :=
  (k1 * x.signExtend 32 + k0 * one).extractLsb 27 12

/-- A quadratic piece: `tmp_3` is the linear piece of `K2`, `K1`, then
`tmp_4 = x * tmp_3 + K0 * ONE` and `tmp_4[27:12]`. -/
def quadratic (k2 k1 k0 : BitVec 32) (x : BitVec 16) : BitVec 16 :=
  let tmp3 := linear k2 k1 x
  (x.signExtend 32 * tmp3.signExtend 32 + k0 * one).extractLsb 27 12

def sigmoid (x : BitVec 16) : BitVec 16 :=
  if (x.signExtend 32).sle xInf then zero.setWidth 16
  else if (x.signExtend 32).sle xMin then linear p2k1 p2k0 x
  else if (x.signExtend 32).sle xMed then quadratic p3k2 p3k1 p3k0 x
  else if (x.signExtend 32).sle xMax then quadratic p4k2 p4k1 p4k0 x
  else if (x.signExtend 32).sle xSup then linear p5k1 p5k0 x
  else one.setWidth 16

/-! ## Vaisnav -/

def one16 : BitVec 16 := 4096
def limit5120 : BitVec 16 := 20480
def limit2432 : BitVec 16 := 9728
def limit1024 : BitVec 16 := 4096
def indep864 : BitVec 16 := 3456
def indep640 : BitVec 16 := 2560
def indep512 : BitVec 16 := 2048

def yTmp (absX : BitVec 16) : BitVec 16 :=
  if limit5120.sle absX then one16
  else if limit2432.sle absX then absX.sshiftRight 5 + indep864
  else if limit1024.sle absX then absX.sshiftRight 3 + indep640
  else absX.sshiftRight 2 + indep512

def sigmoide (x : BitVec 16) : BitVec 16 :=
  if x.getLsbD 15 = false then yTmp x.abs else one16 - yTmp x.abs

end CimSigmoid.Sigmoid
