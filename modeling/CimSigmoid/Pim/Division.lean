import CimSigmoid.Pim.Addition
import CimSigmoid.Bits.NonRestoring

/-!
# Fixed-point division

`fixedDivision` of `serial/AritPIM.py`, a non-restoring division. The remainder has two
columns more than the output for it; instead of being shifted it moves by one column from
pass to pass (`np.roll`), and a pass writes column `j` of the new place where it has just
read column `j - 1` of the old one. At the end the remainder stands two columns off the
output array, and the last correction moves it there.
-/

namespace CimSigmoid.Pim

open Machine Mem Bits SerialSimulator

variable {cols : Nat} {ι : Type}

/-- `np.roll(a, 1)` of an array of length `n`. -/
def roll (n : Nat) (a : Nat → Fin cols) (j : Nat) : Fin cols := a ((j + (n - 1)) % n)

/-- `np.concatenate` of an array of length `m` and another. -/
def concat (m : Nat) (x y : Nat → Fin cols) (i : Nat) : Fin cols := if i < m then x i else y (i - m)

variable [NeZero cols]

/-- Column `j` of a pass: `xor (d j) q` is added to `rz j`, and `q` where `d` has ended. -/
def passColumn (N : Nat) (rz d out : Nat → Fin cols) (q notq carry : Fin cols) (j : Nat) :
    SerialM cols ι Unit :=
  let inCarry := if 0 < j then carry else q
  if j < N then scratchOne fun dq => do
    xor (d j) q dq none (some notq) none
    fullAdder (rz j) dq inCarry (out j) carry
  else fullAdder (rz j) q inCarry (out j) carry

/-- The additions of one pass: the divisor is taken from `rz` or added to it, as the last
quotient bit says. -/
def divisionPass (N : Nat) (rz d out : Nat → Fin cols) (q : Fin cols) : SerialM cols ι Unit :=
  scratchOne fun notq => do
    initNot q notq
    scratchOne fun carry => forRange (N + 2) (passColumn N rz d out q notq carry)

/-- The loop over the quotient bits below `i`, from the highest; gives the last place of the
remainder. -/
def divisionLoop (N : Nat) (z d q : Nat → Fin cols) :
    Nat → (Nat → Fin cols) → SerialM cols ι (Nat → Fin cols)
  | 0, reff => pure reff
  | i + 1, reff => do
    let out := roll (N + 2) reff
    divisionPass N (concat 1 (fun _ => z i) reff) d out (q (i + 1))
    initNot (out (N + 1)) (q i)
    divisionLoop N z d q i out

/-- The last loop: the divisor is added to a negative remainder. -/
def correction (N : Nat) (d r reff : Nat → Fin cols) : SerialM cols ι Unit :=
  scratchOne fun notr => do
    initNot (reff (N + 1)) notr
    scratchOne fun carry => do
      perform .init0 [] [carry]
      forRange N fun j => scratch 2 fun t => do
        initNot (d j) (t 0)
        initNor notr (t 0) (t 1)
        fullAdder (reff j) (t 1) carry (r j) carry

/-- The unrolled pass of the highest quotient bit, a subtraction; gives the two columns by which
the remainder is extended. -/
def firstPass (N : Nat) (z d q r : Nat → Fin cols) : SerialM cols ι (Nat → Fin cols) := do
  let zero ← mallocOne
  perform .init0 [] [zero]
  let ext ← malloc 2
  let reff := roll (N + 2) (concat N r ext)
  fixedSubtraction (N + 2) (padded (N + 1) (dropped (N - 1) z) zero) (padded N d zero) reff none
  initNot (reff (N + 1)) (q (N - 1))
  freeOne zero
  pure ext

def fixedDivision (N : Nat) (z d q r : Nat → Fin cols) : SerialM cols ι Unit := do
  let ext ← firstPass N z d q r
  let reff ← divisionLoop N z d q (N - 1) (roll (N + 2) (concat N r ext))
  correction N d r reff
  free 2 ext

/-! ## Places of the remainder -/

section

variable {s : SerialSimulator cols ι} {N i n : Nat} {z d q r a reff : Nat → Fin cols}

omit [NeZero cols] in
theorem roll_zero : roll (N + 2) a 0 = a (N + 1) := by
  rw [roll, Nat.zero_add, Nat.mod_eq_of_lt (by omega)]
  rfl

omit [NeZero cols] in
theorem roll_succ {j : Nat} (hj : j < N + 1) : roll (N + 2) a (j + 1) = a j := by
  rw [roll, show j + 1 + (N + 2 - 1) = j + (N + 2) by omega, Nat.add_mod_right,
    Nat.mod_eq_of_lt (by omega)]

omit [NeZero cols] in
theorem concat_all {m : Nat} {x y : Nat → Fin cols} {p : Fin cols → Prop} (hx : ∀ i < m, p (x i))
    (hy : ∀ i < n, p (y i)) : ∀ i < m + n, p (concat m x y i) := by
  intro i hi
  unfold concat
  split
  · exact hx i ‹_›
  · exact hy _ (by omega)

omit [NeZero cols] in
theorem iterate_roll {j : Nat} (hj : j < n) : (roll n)^[i] a j = a ((j + i * (n - 1)) % n) := by
  induction i generalizing a with
  | zero => rw [Nat.zero_mul, Nat.add_zero, Nat.mod_eq_of_lt hj]; rfl
  | succ i ih =>
    rw [Function.iterate_succ_apply, ih, roll, Nat.mod_add_mod, Nat.succ_mul, Nat.add_assoc]

omit [NeZero cols] in
theorem Distinct.roll (h : Distinct (N + 2) a) : Distinct (N + 2) (roll (N + 2) a) := by
  intro i hi j hj e
  have hm : (i + (N + 1)) % (N + 2) = (j + (N + 1)) % (N + 2) :=
    h _ (Nat.mod_lt _ (by omega)) _ (Nat.mod_lt _ (by omega)) e
  have hij : i % (N + 2) = j % (N + 2) := Nat.ModEq.add_right_cancel' (N + 1) hm
  rwa [Nat.mod_eq_of_lt hi, Nat.mod_eq_of_lt hj] at hij

/-- The columns of a division, with a remainder of `m` columns: those written are distinct and
no operand's. -/
structure Places (s : SerialSimulator cols ι) (N m : Nat) (z d q r : Nat → Fin cols) : Prop where
  heldZ : Held s (2 * N) z
  heldD : Held s N d
  heldQ : Held s N q
  heldR : Held s m r
  distinctQ : Distinct N q
  distinctR : Distinct m r
  q_ne_z : ∀ i < N, ∀ j < 2 * N, q i ≠ z j
  q_ne_d : ∀ i < N, ∀ j < N, q i ≠ d j
  r_ne_z : ∀ i < m, ∀ j < 2 * N, r i ≠ z j
  r_ne_d : ∀ i < m, ∀ j < N, r i ≠ d j
  r_ne_q : ∀ i < m, ∀ j < N, r i ≠ q j

omit [NeZero cols] in
theorem Places.of_held {s' : SerialSimulator cols ι} {m : Nat} (h : Places s N m z d q r)
    (hi : ∀ c, c ∉ s.inter.free → c ∉ s'.inter.free) : Places s' N m z d q r :=
  { h with
    heldZ := fun i hi' => hi _ (h.heldZ i hi')
    heldD := fun i hi' => hi _ (h.heldD i hi')
    heldQ := fun i hi' => hi _ (h.heldQ i hi')
    heldR := fun i hi' => hi _ (h.heldR i hi') }

omit [NeZero cols] in
theorem Places.roll (h : Places s N (N + 2) z d q reff) :
    Places s N (N + 2) z d q (roll (N + 2) reff) :=
  { h with
    heldR := fun _ _ => h.heldR _ (Nat.mod_lt _ (by omega))
    distinctR := h.distinctR.roll
    r_ne_z := fun _ _ => h.r_ne_z _ (Nat.mod_lt _ (by omega))
    r_ne_d := fun _ _ => h.r_ne_d _ (Nat.mod_lt _ (by omega))
    r_ne_q := fun _ _ => h.r_ne_q _ (Nat.mod_lt _ (by omega)) }

/-! ## A pass -/

omit [NeZero cols] in
/-- The shifted remainder, as a number. -/
theorem num_shifted (reff : Nat → Fin cols) (mem : Fin cols → ι → Bool) (b : Fin cols) (r : ι) :
    num (N + 2) (concat 1 (fun _ => b) reff) mem r + 2 ^ (N + 2) * (mem (reff (N + 1)) r).toNat =
      2 * num (N + 2) reff mem r + (mem b r).toNat := by
  have h1 : num (N + 2) (concat 1 (fun _ => b) reff) mem r =
      (mem b r).toNat + 2 * num (N + 1) reff mem r := by
    have hd : dropped 1 (concat 1 (fun _ => b) reff) = reff := by
      funext i
      simp [dropped, concat]
    rw [show N + 2 = 1 + (N + 1) by omega, num_add, hd]
    simp [num, bitsValue, concat]
  have h2 : num (N + 2) reff mem r =
      num (N + 1) reff mem r + 2 ^ (N + 1) * (mem (reff (N + 1)) r).toNat := rfl
  rw [h1, h2, Nat.pow_succ 2 (N + 1)]
  ring

/-- What a pass adds, as a number: the divisor, or its complement and one. -/
theorem bitsValue_addend (N : Nat) (b : Nat → Bool) (q : Bool) :
    (bitsValue (N + 2) fun j => if j < N then (b j ^^ q) else q) + q.toNat =
      if q then 2 ^ (N + 2) - bitsValue N b else bitsValue N b := by
  have hlow : (bitsValue N fun j => if j < N then (b j ^^ q) else q) =
      bitsValue N fun j => b j ^^ q := bitsValue_congr fun j hj => if_pos hj
  have hN : ¬N + 1 < N := by omega
  rw [bitsValue, bitsValue, hlow, if_neg (Nat.lt_irrefl N), if_neg hN]
  cases q with
  | false => simp
  | true =>
    have hnot := bitsValue_not N b
    simp only [Bool.xor_true, Bool.toNat_true, if_true, Nat.pow_succ]
    omega

def passCycles (N j : Nat) : Nat := if j < N then 26 else 18

theorem sum_passCycles (N : Nat) : ∑ j ∈ Finset.range (N + 2), passCycles N j = 26 * N + 36 := by
  have hlow : ∑ j ∈ Finset.range N, passCycles N j = N * 26 := by
    rw [← sum_range_const]
    exact Finset.sum_congr rfl fun j hj => if_pos (Finset.mem_range.mp hj)
  rw [Finset.sum_range_succ, Finset.sum_range_succ, hlow, passCycles, passCycles,
    if_neg (by omega), if_neg (by omega)]
  omega

section

variable {rz out : Nat → Fin cols} {b notb carry : Fin cols}

/-- The bit that column `j` of a pass adds. -/
def addend (N : Nat) (d : Nat → Fin cols) (b : Fin cols) (mem : Fin cols → ι → Bool) (r : ι)
    (j : Nat) : Bool :=
  if j < N then mem (d j) r ^^ mem b r else mem b r

theorem ends_passColumn {c : Fin cols} {j : Nat} (hf : 5 ≤ s.inter.free.length)
    (hx : rz j ∉ s.inter.free) (hd : j < N → d j ∉ s.inter.free) (hb : b ∉ s.inter.free)
    (hnotb : notb ∉ s.inter.free) (hc : (if 0 < j then carry else b) = c) (hcf : c ∉ s.inter.free)
    (ho : out j ∉ s.inter.free) (hcarry : carry ∉ s.inter.free)
    (hnot : ∀ r, s.memory notb r = !s.memory b r) (hdb : j < N → d j ≠ b) (hxb : rz j ≠ b)
    (hoc : out j ≠ carry) :
    Ends (passColumn N rz d out b notb carry j) s fun _ s' =>
      Step (fun i => i = out j ∨ i = carry) 5 (passCycles N j) s s' ∧
      ∀ r, (s'.memory (out j) r).toNat + 2 * (s'.memory carry r).toNat =
        (s.memory (rz j) r).toNat + (addend N d b s.memory r j).toNat + (s.memory c r).toNat := by
  by_cases hj : j < N
  · simp only [passColumn, if_pos hj, passCycles, addend, hc]
    refine ends_scratchOne (m := 4) (n := 26) (W := fun i => i = out j ∨ i = carry)
      (Q := fun mem => ∀ r, (mem (out j) r).toNat + 2 * (mem carry r).toNat =
        (s.memory (rz j) r).toNat + (s.memory (d j) r ^^ s.memory b r).toNat +
          (s.memory c r).toNat) (by omega) fun dq hdq => ?_
    have hf' : 4 ≤ (s.inter.alloc [dq]).free.length := le_length_alloc (by simpa using hf)
    refine Ends.bind (ends_xor hf' (not_free_alloc (hd hj)) (not_free_alloc hb) not_free_self
      (hdb hj) (fun i hi => by cases hi) (fun i hi => ?_) (fun i hi => by cases hi)) ?_
    · cases hi
      exact ⟨not_free_alloc hnotb, hnot⟩
    · rintro _ s₁ ⟨hstep, hxor⟩
      have hin : s₁.inter = s.inter.alloc [dq] := hstep.inter
      refine Ends.mono (ends_fullAdder (hin ▸ hf') (hin ▸ not_free_alloc hx) (hin ▸ not_free_self)
        (hin ▸ not_free_alloc hcf) (hin ▸ not_free_alloc ho) (hin ▸ not_free_alloc hcarry)
        (ne_of_first hdq hx).symm hoc) ?_
      rintro _ s₂ ⟨hstep', hsum⟩
      refine ⟨(hstep.mono (fun _ => .inr) (Nat.le_refl 4)).trans
        (hstep'.mono (fun _ => .inl) (Nat.le_refl 4)), fun r => ?_⟩
      rw [hsum, hxor, hstep.memory_eq (not_free_alloc hx) (ne_of_first hdq hx).symm,
        hstep.memory_eq (not_free_alloc hcf) (ne_of_first hdq hcf).symm]
      rfl
  · simp only [passColumn, if_neg hj, passCycles, addend, hc]
    refine Ends.mono (ends_fullAdder (by omega) hx hb hcf ho hcarry hxb hoc) ?_
    rintro _ s' ⟨hstep, hsum⟩
    exact ⟨hstep.mono (fun _ => id) (by omega), hsum⟩

structure PassPlaces (s : SerialSimulator cols ι) (N : Nat) (rz d out : Nat → Fin cols)
    (b : Fin cols) : Prop where
  heldX : Held s (N + 2) rz
  heldD : Held s N d
  heldZ : Held s (N + 2) out
  heldB : b ∉ s.inter.free
  distinct : Distinct (N + 2) out
  read : ReadFirst (N + 2) rz out
  out_ne_d : ∀ j < N + 2, ∀ l < N, out j ≠ d l
  out_ne_b : ∀ j < N + 2, out j ≠ b
  x_ne_b : ∀ j < N + 2, rz j ≠ b
  d_ne_b : ∀ j < N, d j ≠ b

omit [NeZero cols] in
theorem PassPlaces.of_held {s' : SerialSimulator cols ι} (h : PassPlaces s N rz d out b)
    (hi : ∀ c, c ∉ s.inter.free → c ∉ s'.inter.free) : PassPlaces s' N rz d out b :=
  { h with
    heldX := fun i hi' => hi _ (h.heldX i hi')
    heldD := fun i hi' => hi _ (h.heldD i hi')
    heldZ := fun i hi' => hi _ (h.heldZ i hi')
    heldB := hi _ h.heldB }

theorem ends_passColumns (hf : 5 ≤ s.inter.free.length) (h : PassPlaces s N rz d out b)
    (hnotb : notb ∉ s.inter.free) (hnot : ∀ r, s.memory notb r = !s.memory b r)
    (hno : ∀ j < N + 2, out j ≠ notb) (hcarry : carry ∉ s.inter.free)
    (hcx : ∀ j < N + 2, rz j ≠ carry) (hcd : ∀ j < N, d j ≠ carry) (hco : ∀ j < N + 2, out j ≠ carry)
    (hcb : b ≠ carry) (hcn : notb ≠ carry) :
    Ends (forRange (N + 2) (passColumn N rz d out b notb carry)) s fun _ s' =>
      Step (fun o => (∃ j < N + 2, o = out j) ∨ o = carry) 5 (26 * N + 36) s s' ∧
      ∃ co : ι → Bool, ∀ r, num (N + 2) out s'.memory r + 2 ^ (N + 2) * (co r).toNat =
        num (N + 2) rz s.memory r + bitsValue (N + 2) (addend N d b s.memory r) +
          (s.memory b r).toNat := by
  have hc : ∀ j < N + 2, carryCell (N + 2) b carry carry (j + 1) = carry := fun j hj => by
    rw [carryCell_succ hj, ite_self]
  refine Ends.mono (ends_ripple (k := 5) (n := passCycles N) (V := fun _ => False)
    (x := fun j => s.memory (rz j)) (y := fun j r => addend N d b s.memory r j)
    (c := carryCell (N + 2) b carry carry) h.distinct h.heldZ (fun j hj l hl => ?_)
    (fun _ _ => id) fun j hj s' hi' hmem => ?_) ?_
  · rw [hc l hl]
    exact hco j hj
  · -- what is read but not written is as it was before the loop
    have hsame : ∀ o, o ∉ s.inter.free → o ≠ carry → (∀ l < j, out l ≠ o) →
        s'.memory o = s.memory o := fun o ho hoc hl =>
      hmem o ho id fun l hlj => ⟨(hl l hlj).symm, by rwa [hc l (by omega)]⟩
    have hb' := hsame b h.heldB hcb fun l hl => h.out_ne_b l (by omega)
    have hx' := hsame (rz j) (h.heldX j hj) (hcx j hj) fun l hl => h.read l j hl hj
    have hn' := hsame notb hnotb hcn fun l hl => hno l (by omega)
    have hin : (if 0 < j then carry else b) = carryCell (N + 2) b carry carry j := by
      rcases Nat.eq_zero_or_pos j with rfl | h0
      · rfl
      · rw [if_pos h0, carryCell_pos h0 hj]
    refine Ends.mono (ends_passColumn (hi' ▸ hf) (hi' ▸ h.heldX j hj)
      (fun hjN => hi' ▸ h.heldD j hjN) (hi' ▸ h.heldB) (hi' ▸ hnotb) hin ?_ (hi' ▸ h.heldZ j hj)
      (hi' ▸ hcarry) (fun r => by rw [hn', hb', hnot]) (h.d_ne_b j) (h.x_ne_b j hj) (hco j hj)) ?_
    · rw [← hin, hi']
      split
      · exact hcarry
      · exact h.heldB
    · rintro _ s'' ⟨hstep, hsum⟩
      refine ⟨hstep.mono (fun o ho => .inr ?_) (Nat.le_refl 5), fun r => ?_⟩
      · rw [hc j hj]
        exact ho
      · have hadd : addend N d b s'.memory r j = addend N d b s.memory r j := by
          unfold addend
          split
          · rename_i hjN
            rw [hb', hsame (d j) (h.heldD j hjN) (hcd j hjN) fun l hl => h.out_ne_d l (by omega) j hjN]
          · rw [hb']
        rw [hc j hj, hsum, hx', hadd]
  · rintro _ s' ⟨hstep, hsum⟩
    rw [sum_passCycles] at hstep
    refine ⟨hstep.mono ?_ (Nat.le_refl 5), _, hsum⟩
    rintro o (e | ⟨j, hj, rfl | rfl⟩)
    · exact e.elim
    · exact .inl ⟨j, hj, rfl⟩
    · exact .inr (hc j hj)

/-- **A pass** takes the divisor from `rz`, or adds it, in two's complement. -/
theorem ends_divisionPass (hf : 7 ≤ s.inter.free.length) (h : PassPlaces s N rz d out b) :
    Ends (divisionPass N rz d out b) s fun _ s' =>
      Step (fun o => ∃ j < N + 2, o = out j) 7 (2 + (26 * N + 36)) s s' ∧
      ∀ r, num (N + 2) out s'.memory r = (num (N + 2) rz s.memory r +
        if s.memory b r then 2 ^ (N + 2) - num N d s.memory r else num N d s.memory r) %
          2 ^ (N + 2) := by
  refine ends_scratchOne (m := 6) (W := fun o => ∃ j < N + 2, o = out j)
    (Q := fun mem => ∀ r, num (N + 2) out mem r = (num (N + 2) rz s.memory r +
        if s.memory b r then 2 ^ (N + 2) - num N d s.memory r else num N d s.memory r) %
          2 ^ (N + 2)) (by omega) fun notb hnotb => ?_
  refine ends_seq (run_initNot (ne_of_first hnotb h.heldB).symm) ?_
  obtain ⟨s₁, hs₁⟩ : ∃ s₁, s₁ = (s.withInter (s.inter.alloc [notb])).not b notb := ⟨_, rfl⟩
  rw [← hs₁]
  have hstep₁ : Step (· = notb) 6 2 (s.withInter (s.inter.alloc [notb])) s₁ := by
    rw [hs₁]
    exact step_not (W := (· = notb)) rfl
  have hin₁ : s₁.inter = s.inter.alloc [notb] := hstep₁.inter
  have hmem₁ : ∀ c, c ∉ s.inter.free → s₁.memory c = s.memory c := fun c hc =>
    hstep₁.memory_eq (not_free_alloc hc) (ne_of_first hnotb hc).symm
  have hheld₁ : ∀ c, c ∉ s.inter.free → c ∉ s₁.inter.free := fun c hc => hin₁ ▸ not_free_alloc hc
  have hnotf₁ : notb ∉ s₁.inter.free := hin₁ ▸ not_free_self
  have hf₁ : 6 ≤ s₁.inter.free.length := hin₁ ▸ le_length_alloc (by simpa using hf)
  have h₁ := h.of_held hheld₁
  refine Ends.mono (ends_scratchOne (s := s₁) (m := 5) (n := 26 * N + 36)
    (W := fun o => ∃ j < N + 2, o = out j)
    (Q := fun mem => ∃ co : ι → Bool, ∀ r, num (N + 2) out mem r + 2 ^ (N + 2) * (co r).toNat =
        num (N + 2) rz s₁.memory r + bitsValue (N + 2) (addend N d b s₁.memory r) +
          (s₁.memory b r).toNat) (by omega) fun carry hcarry => ?_) ?_
  · have hne : ∀ c, c ∉ s₁.inter.free → c ≠ carry := fun c hc => (ne_of_first hcarry hc).symm
    refine ends_passColumns (le_length_alloc (by simpa using hf₁))
      (h₁.of_held fun c => not_free_alloc) (not_free_alloc hnotf₁) (fun r => ?_)
      (fun j hj => (ne_of_first hnotb (h.heldZ j hj)).symm) not_free_self
      (fun j hj => hne _ (h₁.heldX j hj)) (fun j hj => hne _ (h₁.heldD j hj))
      (fun j hj => hne _ (h₁.heldZ j hj)) (hne _ h₁.heldB) (hne _ hnotf₁)
    simp [hs₁, (ne_of_first hnotb h.heldB).symm]
  · rintro _ s' ⟨hstep, co, hnum⟩
    refine ⟨(hstep₁.mono (fun _ => .inr) (Nat.le_refl 6)).trans
      (hstep.mono (fun _ => .inl) (Nat.le_refl 6)), fun r => ?_⟩
    have hx : num (N + 2) rz s₁.memory r = num (N + 2) rz s.memory r :=
      bitsValue_congr fun j hj => congrFun (hmem₁ _ (h.heldX j hj)) r
    have hd : num N d s₁.memory r = num N d s.memory r :=
      bitsValue_congr fun j hj => congrFun (hmem₁ _ (h.heldD j hj)) r
    have hadd : bitsValue (N + 2) (addend N d b s₁.memory r) + (s₁.memory b r).toNat =
        if s.memory b r then 2 ^ (N + 2) - num N d s.memory r else num N d s.memory r := by
      rw [← hd, ← hmem₁ b h.heldB]
      exact bitsValue_addend N (fun j => s₁.memory (d j) r) (s₁.memory b r)
    rw [← hadd, ← hx, ← Nat.add_assoc, ← hnum r, Nat.add_mul_mod_self_left, Nat.mod_eq_of_lt num_lt]

end

/-! ## The loop -/

omit [NeZero cols] in
/-- A pass reads no column of the remainder that it has written. -/
theorem readFirst_roll {c : Fin cols} (h : Distinct (N + 2) reff) :
    ReadFirst (N + 2) (concat 1 (fun _ => c) reff) (roll (N + 2) reff) := by
  intro j l hjl hl
  rw [concat, if_neg (by omega)]
  intro e
  cases j with
  | zero =>
    rw [roll_zero] at e
    have := h _ (by omega) _ (by omega) e
    omega
  | succ j =>
    rw [roll_succ (by omega)] at e
    have := h _ (by omega) _ (by omega) e
    omega

omit [NeZero cols] in
theorem Places.pass (h : Places s N (N + 2) z d q reff) (hi : i + 1 < N) :
    PassPlaces s N (concat 1 (fun _ => z i) reff) d (Pim.roll (N + 2) reff) (q (i + 1)) where
  heldX j hj := concat_all (n := N + 1) (p := (· ∉ s.inter.free)) (fun _ _ => h.heldZ i (by omega))
    (fun l hl => h.heldR l (by omega)) j (by omega)
  heldD := h.heldD
  heldZ := h.roll.heldR
  heldB := h.heldQ _ hi
  distinct := h.distinctR.roll
  read := readFirst_roll h.distinctR
  out_ne_d := h.roll.r_ne_d
  out_ne_b j hj := h.roll.r_ne_q j hj _ hi
  x_ne_b j hj := concat_all (n := N + 1) (p := (· ≠ q (i + 1)))
    (fun _ _ => (h.q_ne_z _ hi i (by omega)).symm) (fun l hl => h.r_ne_q l (by omega) _ hi) j (by omega)
  d_ne_b j hj := (h.q_ne_d _ hi j hj).symm

/-- A division of which `i` quotient bits are still to come. -/
structure Divided (N i : Nat) (Z D : ι → Nat) (q reff : Nat → Fin cols)
    (mem : Fin cols → ι → Bool) : Prop where
  rem : ∀ r, num (N + 2) reff mem r = nrRem N (Z r) (D r) (N - 1 - i)
  bits : ∀ r, ∀ j < N, i ≤ j → mem (q j) r = nrBit N (Z r) (D r) j

section

variable {mem mem' : Fin cols → ι → Bool} {Z D : ι → Nat}

omit [NeZero cols] in
theorem nrBit_of_rem {r : ι} (hrem : num (N + 2) reff mem r = nrRem N (Z r) (D r) (N - 1 - i)) :
    (!mem (reff (N + 1)) r) = nrBit N (Z r) (D r) i := by
  have hmsb := bitsValue_msb (N + 1) fun j => mem (reff j) r
  rw [nrBit, ← hrem, hmsb, ← decide_not]
  exact decide_eq_decide.mpr Nat.not_le

omit [NeZero cols] in
/-- A pass, and the quotient bit after it. -/
theorem Divided.step (h : Divided N (i + 1) Z D q reff mem) (hi : i + 1 < N)
    (hZ : ∀ r, num (2 * N) z mem r = Z r) (hD : ∀ r, num N d mem r = D r)
    (hnum : ∀ r, num (N + 2) a mem' r = (num (N + 2) (concat 1 (fun _ => z i) reff) mem r +
      if mem (q (i + 1)) r then 2 ^ (N + 2) - num N d mem r else num N d mem r) % 2 ^ (N + 2))
    (hbit : ∀ r, mem' (q i) r = !mem' (a (N + 1)) r)
    (hkeep : ∀ j < N, i + 1 ≤ j → mem' (q j) = mem (q j)) : Divided N i Z D q a mem' := by
  have hrem : ∀ r, num (N + 2) a mem' r = nrRem N (Z r) (D r) (N - 1 - i) := by
    intro r
    have hz : (mem (z i) r).toNat = Z r / 2 ^ (N - 2 - (N - 1 - (i + 1))) % 2 := by
      rw [← hZ, show N - 2 - (N - 1 - (i + 1)) = i by omega, ← Nat.toNat_testBit, num,
        testBit_bitsValue (by omega)]
    have hshift := num_shifted (N := N) reff mem (z i) r
    rw [show N - 1 - i = N - 1 - (i + 1) + 1 by omega, nrRem, nrStep, ← h.rem, ← hz, ← hshift, hnum,
      hD, h.bits r _ hi (Nat.le_refl _), nrBit, ← h.rem, Nat.add_right_comm,
      Nat.add_mul_mod_self_left]
    simp only [decide_eq_true_eq]
  refine ⟨hrem, fun r j hj hij => ?_⟩
  rcases Nat.eq_or_lt_of_le hij with rfl | hlt
  · rw [hbit, nrBit_of_rem (hrem r)]
  · rw [hkeep j hj hlt, h.bits r j hj hlt]

theorem ends_divisionLoop (hf : 7 ≤ s.inter.free.length) (h : Places s N (N + 2) z d q reff)
    (hi : i < N) (hZ : ∀ r, num (2 * N) z s.memory r = Z r) (hD : ∀ r, num N d s.memory r = D r)
    (hdiv : Divided N i Z D q reff s.memory) :
    Ends (divisionLoop N z d q i reff) s fun reff' s' => reff' = (roll (N + 2))^[i] reff ∧
      Step (fun o => (∃ j < N + 2, o = reff j) ∨ ∃ j < N, o = q j) 7 (i * (26 * N + 40)) s s' ∧
      Divided N 0 Z D q reff' s'.memory := by
  induction i generalizing s reff with
  | zero =>
    rw [Nat.zero_mul]
    exact ends_pure ⟨rfl, .refl, hdiv⟩
  | succ i ih =>
    refine Ends.bind (ends_divisionPass hf (h.pass hi)) ?_
    rintro _ s₁ ⟨hstep₁, hnum⟩
    have hqr : roll (N + 2) reff (N + 1) ≠ q i := h.roll.r_ne_q _ (by omega) i (by omega)
    refine ends_seq (run_initNot hqr) ?_
    obtain ⟨s₂, hs₂⟩ : ∃ s₂, s₂ = s₁.not (roll (N + 2) reff (N + 1)) (q i) := ⟨_, rfl⟩
    rw [← hs₂]
    have hstep₂ : Step (fun o => (∃ j < N + 2, o = reff j) ∨ o = q i) 7 (26 * N + 40) s s₂ := by
      rw [show 26 * N + 40 = 2 + (26 * N + 36) + 2 by omega, hs₂]
      refine (hstep₁.mono (fun o => ?_) (Nat.le_refl 7)).trans (step_not (.inr rfl))
      rintro ⟨j, hj, rfl⟩
      exact .inl ⟨_, Nat.mod_lt _ (by omega), rfl⟩
    -- the operands and the quotient bits so far are not written
    have hkeep : ∀ c, c ∉ s.inter.free → (∀ j < N + 2, c ≠ reff j) → c ≠ q i →
        s₂.memory c = s.memory c := fun c hc hr hq =>
      hstep₂.memory_eq hc (by rintro (⟨j, hj, e⟩ | e); exacts [hr j hj e, hq e])
    have hZ₂ : ∀ r, num (2 * N) z s₂.memory r = Z r := fun r => (hstep₂.num_eq h.heldZ (fun j hj => by
      rintro (⟨l, hl, e⟩ | e)
      exacts [h.r_ne_z l hl j hj e.symm, h.q_ne_z i (by omega) j hj e.symm]) r).trans (hZ r)
    have hD₂ : ∀ r, num N d s₂.memory r = D r := fun r => (hstep₂.num_eq h.heldD (fun j hj => by
      rintro (⟨l, hl, e⟩ | e)
      exacts [h.r_ne_d l hl j hj e.symm, h.q_ne_d i (by omega) j hj e.symm]) r).trans (hD r)
    have hsame : ∀ j < N + 2, s₂.memory (roll (N + 2) reff j) = s₁.memory (roll (N + 2) reff j) :=
      fun j hj => by
        rw [hs₂, not_memory, Function.update_of_ne (h.roll.r_ne_q j hj i (by omega))]
    have hdiv₂ : Divided N i Z D q (roll (N + 2) reff) s₂.memory := by
      refine hdiv.step hi hZ hD (fun r => ?_) (fun r => ?_) fun j hj hij => ?_
      · rw [← hnum r]
        exact bitsValue_congr fun j hj => congrFun (hsame j hj) r
      · rw [hsame _ (by omega)]
        simp [hs₂]
      · refine hkeep _ (h.heldQ j hj) (fun l hl => (h.r_ne_q l hl j hj).symm) fun e => ?_
        have := h.distinctQ j hj i (by omega) e
        omega
    refine Ends.mono (ih (hstep₂.inter ▸ hf) (h.roll.of_held fun c hc => hstep₂.inter ▸ hc)
      (by omega) hZ₂ hD₂ hdiv₂) ?_
    rintro reff' s' ⟨hreff, hstep, hdiv'⟩
    refine ⟨hreff, ?_, hdiv'⟩
    rw [show (i + 1) * (26 * N + 40) = 26 * N + 40 + i * (26 * N + 40) by ring]
    refine (hstep₂.mono (fun o => Or.imp id fun e => ⟨i, by omega, e⟩) (Nat.le_refl 7)).trans
      (hstep.mono (fun o => Or.imp ?_ id) (Nat.le_refl 7))
    rintro ⟨j, hj, rfl⟩
    exact ⟨_, Nat.mod_lt _ (by omega), rfl⟩

end

/-! ## The correction -/

section

variable {notr carry : Fin cols}

theorem ends_correctionColumn {j : Nat} (hf : 6 ≤ s.inter.free.length)
    (hx : reff j ∉ s.inter.free) (hd : d j ∉ s.inter.free) (hr : r j ∉ s.inter.free)
    (hnotr : notr ∉ s.inter.free) (hcarry : carry ∉ s.inter.free) (hrc : r j ≠ carry) :
    Ends (scratch 2 fun t => do
        initNot (d j) (t 0)
        initNor notr (t 0) (t 1)
        fullAdder (reff j) (t 1) carry (r j) carry) s fun _ s' =>
      Step (fun o => o = r j ∨ o = carry) 6 22 s s' ∧
      ∀ i, (s'.memory (r j) i).toNat + 2 * (s'.memory carry i).toNat = (s.memory (reff j) i).toNat +
        (s.memory (d j) i && !s.memory notr i).toNat + (s.memory carry i).toNat := by
  refine ends_scratch (m := 4) (W := fun o => o = r j ∨ o = carry)
    (Q := fun mem => ∀ i, (mem (r j) i).toNat + 2 * (mem carry i).toNat =
      (s.memory (reff j) i).toNat + (s.memory (d j) i && !s.memory notr i).toNat +
        (s.memory carry i).toNat) (by omega) (by omega) fun t ht => ?_
  have h01 : t 0 ≠ t 1 := by simp [ht.eq_iff]
  have hd0 := (ht.ne hd 0 (by omega)).symm
  have hn0 := (ht.ne hnotr 0 (by omega)).symm
  have hn1 := (ht.ne hnotr 1 (by omega)).symm
  have ht' : ∀ c, c ∉ s.inter.free → c ≠ t 0 ∧ c ≠ t 1 := fun c hc =>
    ⟨(ht.ne hc 0 (by omega)).symm, (ht.ne hc 1 (by omega)).symm⟩
  refine ends_seq (run_initNot hd0) ?_
  refine ends_seq (run_initNor hn0 hn1 h01) ?_
  obtain ⟨s₁, hs₁⟩ : ∃ s₁, s₁ = ((s.withInter (s.inter.alloc (listing 2 t))).not (d j) (t 0)).nor
    notr (t 0) (t 1) := ⟨_, rfl⟩
  rw [← hs₁]
  have hin : s₁.inter = s.inter.alloc (listing 2 t) := by rw [hs₁]; rfl
  have hstep₁ : Step (fun o => (o = r j ∨ o = carry) ∨ ∃ i < 2, t i = o) 4 4
      (s.withInter (s.inter.alloc (listing 2 t))) s₁ := by
    rw [hs₁]
    exact (step_not (.inr ⟨0, by omega, rfl⟩)).trans (step_nor (.inr ⟨1, by omega, rfl⟩))
  have hmem₁ : ∀ c, c ∉ s.inter.free → s₁.memory c = s.memory c := fun c hc => by
    simp [hs₁, ht' c hc]
  have hand : ∀ i, s₁.memory (t 1) i = (s.memory (d j) i && !s.memory notr i) := fun i => by
    simp [hs₁, hn0, Bool.and_comm]
  refine Ends.mono (ends_fullAdder (hin ▸ le_length_alloc (by rw [length_listing]; omega))
    (hin ▸ not_free_alloc hx) (hin ▸ Fresh.not_free (by omega)) (hin ▸ not_free_alloc hcarry)
    (hin ▸ not_free_alloc hr) (hin ▸ not_free_alloc hcarry) (ht' _ hx).2 hrc) ?_
  rintro _ s' ⟨hstep, hsum⟩
  refine ⟨hstep₁.trans (hstep.mono (fun _ => .inl) (Nat.le_refl 4)), fun i => ?_⟩
  rw [hsum, hand, hmem₁ _ hx, hmem₁ _ hcarry]

/-- **The correction** adds the divisor when the remainder is negative. -/
theorem ends_correction (hf : 8 ≤ s.inter.free.length) (hx : Held s (N + 2) reff)
    (hd : Held s N d) (hr : Held s N r) (hdist : Distinct N r) (hread : ReadFirst N reff r)
    (hrd : ∀ i < N, ∀ j < N, r i ≠ d j) :
    Ends (correction N d r reff) s fun _ s' =>
      Step (fun o => ∃ j < N, o = r j) 8 (3 + N * 22) s s' ∧
      ∀ i, num N r s'.memory i = (num N reff s.memory i +
        if s.memory (reff (N + 1)) i then num N d s.memory i else 0) % 2 ^ N := by
  have htop := hx (N + 1) (by omega)
  refine ends_scratchOne (m := 7) (W := fun o => ∃ j < N, o = r j)
    (Q := fun mem => ∀ i, num N r mem i = (num N reff s.memory i +
      if s.memory (reff (N + 1)) i then num N d s.memory i else 0) % 2 ^ N) (by omega)
    fun notr hnotr => ?_
  refine ends_seq (run_initNot (ne_of_first hnotr htop).symm) ?_
  obtain ⟨s₁, hs₁⟩ : ∃ s₁, s₁ = (s.withInter (s.inter.alloc [notr])).not (reff (N + 1)) notr :=
    ⟨_, rfl⟩
  rw [← hs₁]
  have hin₁ : s₁.inter = s.inter.alloc [notr] := by rw [hs₁]; rfl
  have hheld₁ : ∀ c, c ∉ s.inter.free → c ∉ s₁.inter.free := fun c hc => hin₁ ▸ not_free_alloc hc
  have hnotf₁ : notr ∉ s₁.inter.free := hin₁ ▸ not_free_self
  have hf₁ : 7 ≤ s₁.inter.free.length := hin₁ ▸ le_length_alloc (by simpa using hf)
  refine Ends.mono (ends_scratchOne (s := s₁) (m := 6) (n := 1 + N * 22)
    (W := fun o => ∃ j < N, o = r j)
    (Q := fun mem => ∀ i, num N r mem i = (num N reff s.memory i +
      if s.memory (reff (N + 1)) i then num N d s.memory i else 0) % 2 ^ N) (by omega)
    fun carry hcarry => ?_) ?_
  · refine ends_seq perform_init0 ?_
    obtain ⟨s₂, hs₂⟩ : ∃ s₂, s₂ = (s₁.withInter (s₁.inter.alloc [carry])).put carry
      (fun _ => false) 1 := ⟨_, rfl⟩
    rw [← hs₂]
    have hin₂ : s₂.inter = s₁.inter.alloc [carry] := by rw [hs₂]; rfl
    have hne : ∀ c, c ∉ s₁.inter.free → c ≠ carry := fun c hc => (ne_of_first hcarry hc).symm
    have hheld₂ : ∀ c, c ∉ s₁.inter.free → c ∉ s₂.inter.free := fun c hc => hin₂ ▸ not_free_alloc hc
    have hmem₂ : ∀ c, c ∉ s.inter.free → s₂.memory c = s.memory c := fun c hc => by
      simp [hs₂, hs₁, hne c (hheld₁ c hc), (ne_of_first hnotr hc).symm]
    have hnot₂ : ∀ i, s₂.memory notr i = !s.memory (reff (N + 1)) i := fun i => by
      simp [hs₂, hs₁, hne notr hnotf₁]
    have hcarry₂ : ∀ i, s₂.memory carry i = false := fun i => by simp [hs₂]
    refine Ends.mono (ends_ripple (k := 6) (n := fun _ => 22) (V := fun _ => False)
      (x := fun j => s.memory (reff j))
      (y := fun j i => s.memory (d j) i && s.memory (reff (N + 1)) i) (c := fun _ => carry) hdist
      (fun j hj => hheld₂ _ (hheld₁ _ (hr j hj))) (fun j hj _ _ => hne _ (hheld₁ _ (hr j hj)))
      (fun _ _ => id) fun j hj s' hi' hmem => ?_) ?_
    · have hsame : ∀ o, o ∉ s₁.inter.free → (∀ l < j, r l ≠ o) → s'.memory o = s₂.memory o :=
        fun o ho hl => hmem o (hheld₂ o ho) id fun l hlj => ⟨(hl l hlj).symm, hne o ho⟩
      have hx' := hsame _ (hheld₁ _ (hx j (by omega))) fun l hl => hread l j hl hj
      have hd' := hsame _ (hheld₁ _ (hd j hj)) fun l hl => hrd l (by omega) j hj
      have hn' := hsame notr hnotf₁ fun l hl => (ne_of_first hnotr (hr l (by omega))).symm
      refine Ends.mono (ends_correctionColumn
        (hi' ▸ hin₂ ▸ le_length_alloc (by simpa using hf₁))
        (hi' ▸ hheld₂ _ (hheld₁ _ (hx j (by omega)))) (hi' ▸ hheld₂ _ (hheld₁ _ (hd j hj)))
        (hi' ▸ hheld₂ _ (hheld₁ _ (hr j hj))) (hi' ▸ hheld₂ _ hnotf₁)
        (hi' ▸ hin₂ ▸ not_free_self) (hne _ (hheld₁ _ (hr j hj)))) ?_
      rintro _ s'' ⟨hstep, hsum⟩
      refine ⟨hstep.mono (fun _ => .inr) (Nat.le_refl 6), fun i => ?_⟩
      rw [hsum, hx', hd', hn', hnot₂, Bool.not_not, hmem₂ _ (hx j (by omega)), hmem₂ _ (hd j hj)]
    · rintro _ s' ⟨hstep, hsum⟩
      rw [sum_range_const] at hstep
      refine ⟨?_, fun i => ?_⟩
      · have hput : Step (fun o => (∃ j < N, o = r j) ∨ o = carry) 6 1
            (s₁.withInter (s₁.inter.alloc [carry])) s₂ := hs₂ ▸ step_put (.inr rfl) _ 1
        refine hput.trans (hstep.mono ?_ (Nat.le_refl 6))
        rintro o (e | ⟨j, hj, rfl | rfl⟩)
        · exact e.elim
        · exact .inl ⟨j, hj, rfl⟩
        · exact .inr rfl
      · have hadd : (if s.memory (reff (N + 1)) i then num N d s.memory i else 0) =
            bitsValue N fun j => s.memory (d j) i && s.memory (reff (N + 1)) i := by
          rw [bitsValue_and]
          cases s.memory (reff (N + 1)) i <;> simp [num]
        have hsum' : num N r s'.memory i + 2 ^ N * (s'.memory carry i).toNat = num N reff s.memory i +
            bitsValue N fun j => s.memory (d j) i && s.memory (reff (N + 1)) i := by
          rw [hsum i, hcarry₂]
          rfl
        rw [hadd, ← hsum', Nat.add_mul_mod_self_left, Nat.mod_eq_of_lt num_lt]
  · rintro _ s' ⟨hstep, hnum⟩
    have hnot : Step (fun o => (∃ j < N, o = r j) ∨ o = notr) 7 2
        (s.withInter (s.inter.alloc [notr])) s₁ := hs₁ ▸ step_not (.inr rfl)
    rw [show 3 + N * 22 = 2 + (1 + N * 22) by omega]
    exact ⟨hnot.trans (hstep.mono (fun _ => .inl) (Nat.le_refl 7)), hnum⟩

end

/-! ## The division -/

omit [NeZero cols] in
theorem Places.extend {ext : Nat → Fin cols} {P : Pool (Fin cols)} (h : Places s N N z d q r)
    (hP : ∀ c, c ∉ s.inter.free → c ∉ P.free) (hext : ∀ i < 2, ext i ∈ P.free)
    (hdist : Distinct 2 ext) :
    Places (s.withInter (P.alloc (listing 2 ext))) N (N + 2) z d q (concat N r ext) := by
  have hheld : ∀ c, c ∉ s.inter.free → c ∉ (P.alloc (listing 2 ext)).free :=
    fun c hc => not_free_alloc (hP c hc)
  have hne : ∀ c, c ∉ s.inter.free → ∀ i < 2, ext i ≠ c := fun c hc i hi e =>
    hP c hc (e ▸ hext i hi)
  refine { h.of_held hheld with
    heldR := concat_all (p := (· ∉ (P.alloc (listing 2 ext)).free))
      (fun i hi => hheld _ (h.heldR i hi)) fun i hi => Fresh.not_free hi
    distinctR := fun i hi j hj e => ?_
    r_ne_z := fun i hi j hj =>
      concat_all (p := (· ≠ z j)) (fun l hl => h.r_ne_z l hl j hj) (hne _ (h.heldZ j hj)) i hi
    r_ne_d := fun i hi j hj =>
      concat_all (p := (· ≠ d j)) (fun l hl => h.r_ne_d l hl j hj) (hne _ (h.heldD j hj)) i hi
    r_ne_q := fun i hi j hj =>
      concat_all (p := (· ≠ q j)) (fun l hl => h.r_ne_q l hl j hj) (hne _ (h.heldQ j hj)) i hi }
  unfold concat at e
  split at e <;> split at e
  · exact h.distinctR i ‹_› j ‹_› e
  · exact absurd e.symm (hne _ (h.heldR i ‹_›) _ (by omega))
  · exact absurd e (hne _ (h.heldR j ‹_›) _ (by omega))
  · have := hdist _ (by omega) _ (by omega) e
    omega

omit [NeZero cols] in
/-- The leading bits of the dividend. -/
theorem num_leading (hN : 1 ≤ N) (mem : Fin cols → ι → Bool) (i : ι) :
    num (N + 1) (dropped (N - 1) z) mem i = num (2 * N) z mem i / 2 ^ (N - 1) := by
  rw [show 2 * N = N - 1 + (N + 1) by omega, num_add (N - 1) (N + 1), Nat.add_mul_div_left _ _ (Nat.two_pow_pos _),
    Nat.div_eq_of_lt num_lt, Nat.zero_add]

section

variable {Z D : ι → Nat}

omit [NeZero cols] in
/-- The subtraction of the first pass, and the quotient bit after it. -/
theorem divided_first {mem mem' : Fin cols → ι → Bool} {zero : Fin cols} {co : ι → Bool} (hN : 1 ≤ N)
    (hZ : ∀ i, num (2 * N) z mem i = Z i) (hD : ∀ i, num N d mem i = D i)
    (h0 : ∀ i, mem zero i = false)
    (hsub : ∀ i, num (N + 2) reff mem' i + num (N + 2) (padded N d zero) mem i +
      2 ^ (N + 2) * (co i).toNat =
        num (N + 2) (padded (N + 1) (dropped (N - 1) z) zero) mem i + 2 ^ (N + 2))
    (hbit : ∀ i, mem' (q (N - 1)) i = !mem' (reff (N + 1)) i) :
    Divided N (N - 1) Z D q reff mem' := by
  have hrem : ∀ i, num (N + 2) reff mem' i = nrRem N (Z i) (D i) (N - 1 - (N - 1)) := by
    intro i
    have hd : num N d mem i < 2 ^ N := num_lt
    have hpow : 2 ^ (N + 2) = 4 * 2 ^ N := by ring
    have h := hsub i
    rw [num_padded (by omega) (h0 i), num_padded (by omega) (h0 i), num_leading hN] at h
    rw [Nat.sub_self, nrRem, ← hZ, ← hD, show num (2 * N) z mem i / 2 ^ (N - 1) +
      (2 ^ (N + 2) - num N d mem i) = num (N + 2) reff mem' i + 2 ^ (N + 2) * (co i).toNat by omega,
      Nat.add_mul_mod_self_left, Nat.mod_eq_of_lt num_lt]
  refine ⟨hrem, fun i j hj hij => ?_⟩
  rw [show j = N - 1 by omega, hbit, nrBit_of_rem (hrem i)]

theorem ends_firstPass (hN : 1 ≤ N) (hf : 9 ≤ s.inter.free.length) (h : Places s N N z d q r)
    (hZ : ∀ i, num (2 * N) z s.memory i = Z i) (hD : ∀ i, num N d s.memory i = D i) :
    Ends (firstPass N z d q r) s fun ext s' => (∀ i < 2, ext i ∈ s.inter.first 3) ∧
      s'.inter = s.inter.alloc (listing 2 ext) ∧ Places s' N (N + 2) z d q (concat N r ext) ∧
      Changes (Reach (fun o => (∃ j < N, o = r j) ∨ o = q (N - 1)) s.inter 9) (20 * N + 44) s s' ∧
      Divided N (N - 1) Z D q (roll (N + 2) (concat N r ext)) s'.memory := by
  refine Ends.bind (ends_mallocOne (by omega)) ?_
  rintro zero _ ⟨hzero, rfl⟩
  refine ends_seq perform_init0 ?_
  refine Ends.bind (ends_malloc (by omega) (le_length_alloc (m := 2) (by simp; omega))) ?_
  rintro ext s₂ ⟨hext, hs₂⟩
  have hzf := Pool.mem_free_of_first hzero
  have hin₂ : s₂.inter = (s.inter.alloc [zero]).alloc (listing 2 ext) := by rw [hs₂]; rfl
  have hheld₁ : ∀ c, c ∉ s.inter.free → c ∉ (s.inter.alloc [zero]).free := fun c => not_free_alloc
  have hplaces : Places s₂ N (N + 2) z d q (concat N r ext) :=
    (h.extend hheld₁ (fun i => hext.mem_free) hext.inj).of_held fun c hc => hin₂ ▸ hc
  have hmem₂ : ∀ c, c ∉ s.inter.free → s₂.memory c = s.memory c := fun c hc => by
    simp [hs₂, (ne_of_first hzero hc).symm]
  have hzero₂ : zero ∉ s₂.inter.free := hin₂ ▸ not_free_alloc not_free_self
  have hext₃ : ∀ i < 2, ext i ∈ s.inter.first 3 := fun i hi =>
    Pool.first_alloc_subset (C := [zero]) (hext.mem i hi)
  have hrz : ∀ i < N + 2, roll (N + 2) (concat N r ext) i ≠ zero := fun i hi =>
    concat_all (p := (· ≠ zero)) (fun j hj => (ne_of_first hzero (h.heldR j hj)).symm)
      (hext.ne not_free_self) _ (Nat.mod_lt _ (by omega))
  refine Ends.bind (ends_fixedSubtraction (hin₂ ▸ le_length_alloc ?_)
    (held_padded (fun i hi => hplaces.heldZ _ (by omega)) hzero₂)
    (held_padded hplaces.heldD hzero₂) hplaces.roll.heldR hplaces.roll.distinctR
    (readFirst_of_ne fun i hi j hj => ?_) (readFirst_of_ne fun i hi j hj => ?_)
    fun c hc => by cases hc) ?_
  · rw [length_listing]
    exact le_length_alloc (by simp; omega)
  · unfold padded
    split
    · exact hplaces.roll.r_ne_z i hi _ (by omega)
    · exact hrz i hi
  · unfold padded
    split
    · exact hplaces.roll.r_ne_d i hi j ‹_›
    · exact hrz i hi
  · rintro _ s₃ ⟨hstep, co, -, hsub⟩
    have hq : q (N - 1) ∉ s.inter.free := h.heldQ _ (by omega)
    have hqr : ∀ i < N + 2, roll (N + 2) (concat N r ext) i ≠ q (N - 1) := fun i hi =>
      hplaces.roll.r_ne_q i hi _ (by omega)
    refine ends_seq (run_initNot (hqr (N + 1) (by omega))) ?_
    obtain ⟨s₄, hs₄⟩ : ∃ s₄, s₄ = s₃.not (roll (N + 2) (concat N r ext) (N + 1)) (q (N - 1)) :=
      ⟨_, rfl⟩
    rw [← hs₄]
    have hin₄ : s₄.inter = (s.inter.alloc [zero]).alloc (listing 2 ext) := by
      rw [hs₄, not_inter, hstep.inter, hin₂]
    refine ends_seq (run_freeOne (hin₄ ▸ (Pool.mem_free.mp hzf).1)) (ends_pure ?_)
    have hin₅ : s₄.inter.release [zero] = s.inter.alloc (listing 2 ext) := by
      rw [hin₄]
      refine release_alloc_alloc (fun c hc => ?_) fun c hc hl => ?_
      · rw [List.mem_singleton.mp hc]
        exact (Pool.mem_free.mp hzf).2
      · obtain ⟨i, hi, e⟩ := mem_listing.mp hl
        exact hext.ne not_free_self i hi (e.trans (List.mem_singleton.mp hc))
    rw [hin₅]
    refine ⟨hext₃, rfl, (h.extend (fun _ => id) (fun i hi => Pool.mem_free_of_first (hext₃ i hi))
      hext.inj).of_held fun _ => id, ?_, ?_⟩
    · have hT : ∀ i < N + 2, Reach (fun o => (∃ j < N, o = r j) ∨ o = q (N - 1)) s.inter 9
          (concat N r ext i) :=
        concat_all (fun i hi => .inl (.inl ⟨i, hi, rfl⟩))
          fun i hi => .inr (Pool.first_mono (by omega) (hext₃ i hi))
      have h₂ : Changes (Reach (fun o => (∃ j < N, o = r j) ∨ o = q (N - 1)) s.inter 9) 1 s s₂ := by
        rw [hs₂]
        exact (changes_put (.inr (Pool.first_mono (by omega) hzero)) _ 1).withInter _
      have h₃ := h₂.step hstep (fun o ho => ?_) fun c hc => ?_
      · rw [show 20 * N + 44 = 1 + (1 + (N + 2) * 20) + 2 by omega, hs₄]
        exact (h₃.not (.inl (.inr rfl))).withInter _
      · rcases ho with ⟨j, hj, rfl⟩ | ho
        · exact hT _ (Nat.mod_lt _ (by omega))
        · cases ho
      · rw [hin₂] at hc
        have := Pool.first_alloc_subset (Pool.first_alloc_subset hc)
        rw [length_listing] at this
        exact .inr this
    · have hZ₂ : ∀ i, num (2 * N) z s₂.memory i = Z i := fun i =>
        (bitsValue_congr fun j hj => congrFun (hmem₂ _ (h.heldZ j hj)) i).trans (hZ i)
      have hD₂ : ∀ i, num N d s₂.memory i = D i := fun i =>
        (bitsValue_congr fun j hj => congrFun (hmem₂ _ (h.heldD j hj)) i).trans (hD i)
      have hsame : ∀ j < N + 2, s₄.memory (roll (N + 2) (concat N r ext) j) =
          s₃.memory (roll (N + 2) (concat N r ext) j) := fun j hj => by
        rw [hs₄, not_memory, Function.update_of_ne (hqr j hj)]
      have hnum : ∀ i, num (N + 2) (roll (N + 2) (concat N r ext)) s₄.memory i =
          num (N + 2) (roll (N + 2) (concat N r ext)) s₃.memory i := fun i =>
        bitsValue_congr fun j hj => congrFun (hsame j hj) i
      refine divided_first hN hZ₂ hD₂ (fun i => ?_) (fun i => (hnum i).symm ▸ hsub i) fun i => ?_
      · simp [hs₂]
      · rw [withInter_memory, hsame _ (by omega)]
        simp [hs₄]

omit [NeZero cols] in
/-- After all passes the remainder stands two columns off its array. -/
theorem roll_all {j : Nat} (hN : 1 ≤ N) (hj : j < N) :
    (roll (N + 2))^[N - 1] (roll (N + 2) a) j = a (j + 2) := by
  rw [← Function.iterate_succ_apply, iterate_roll (by omega),
    show j + (N - 1).succ * (N + 2 - 1) = j + 2 + (N - 1) * (N + 2) by
      obtain ⟨M, rfl⟩ := Nat.exists_eq_add_of_le' hN
      simp only [Nat.add_sub_cancel, Nat.succ_eq_add_one, show M + 1 + 2 - 1 = M + 2 by omega]
      ring,
    Nat.add_mul_mod_self_right, Nat.mod_eq_of_lt (by omega)]

omit [NeZero cols] in
theorem Divided.remainder {mem : Fin cols → ι → Bool} (h : Divided N 0 Z D q reff mem) (i : ι) :
    (num N reff mem i + if mem (reff (N + 1)) i then D i else 0) % 2 ^ N =
      nrRemainder N (Z i) (D i) := by
  have hbit := nrBit_of_rem (h.rem i)
  have hrem := h.rem i
  rw [num_add N 2] at hrem
  rw [nrRemainder, ← hbit, ← Nat.sub_zero (N - 1), ← hrem, Nat.add_right_comm,
    Nat.add_mul_mod_self_left]
  cases mem (reff (N + 1)) i <;> rfl

theorem ends_fixedDivision (hN : 1 ≤ N) (hf : 10 ≤ s.inter.free.length)
    (h : Places s N N z d q r) :
    Ends (fixedDivision N z d q r) s fun _ s' =>
      Step (fun o => (∃ j < N, o = r j) ∨ ∃ j < N, o = q j) 10 (26 * N ^ 2 + 56 * N + 7) s s' ∧
      ∀ i, num N q s'.memory i =
          nrQuotient N (num (2 * N) z s.memory i) (num N d s.memory i) ∧
        num N r s'.memory i =
          nrRemainder N (num (2 * N) z s.memory i) (num N d s.memory i) := by
  refine Ends.bind (ends_firstPass (Z := num (2 * N) z s.memory) (D := num N d s.memory) hN (by omega)
    h (fun _ => rfl) fun _ => rfl) ?_
  rintro ext s₁ ⟨hext, hin₁, hplaces, hch₁, hdiv₁⟩
  -- seen from `s`, every part changes `T` only
  obtain ⟨T, hT⟩ : ∃ T, T = Reach (fun o => (∃ j < N, o = r j) ∨ ∃ j < N, o = q j) s.inter 10 :=
    ⟨_, rfl⟩
  have hTr : ∀ j < N + 2, T (concat N r ext j) := hT ▸ concat_all
    (fun j hj => .inl (.inl ⟨j, hj, rfl⟩)) fun j hj => .inr (Pool.first_mono (by omega) (hext j hj))
  have hTq : ∀ j < N, T (q j) := fun j hj => hT ▸ .inl (.inr ⟨j, hj, rfl⟩)
  have hTf : ∀ c ∈ s₁.inter.first 8, T c := fun c hc => by
    rw [hin₁] at hc
    have := Pool.first_alloc_subset hc
    rw [length_listing] at this
    exact hT ▸ .inr this
  have hnT : ∀ c, c ∉ s.inter.free → (∀ j < N, r j ≠ c) → (∀ j < N, q j ≠ c) → ¬T c := by
    intro c hc hr hq
    rw [hT]
    rintro ((⟨j, hj, rfl⟩ | ⟨j, hj, rfl⟩) | hc')
    · exact hr j hj rfl
    · exact hq j hj rfl
    · exact hc (Pool.mem_free_of_first hc')
  have hzT : ∀ j < 2 * N, ¬T (z j) := fun j hj => hnT _ (h.heldZ j hj)
    (fun l hl => h.r_ne_z l hl j hj) fun l hl => h.q_ne_z l hl j hj
  have hdT : ∀ j < N, ¬T (d j) := fun j hj => hnT _ (h.heldD j hj)
    (fun l hl => h.r_ne_d l hl j hj) fun l hl => h.q_ne_d l hl j hj
  have hch₁ : Changes T (20 * N + 44) s s₁ := hch₁.mono fun c hc => by
    rcases hc with (⟨j, hj, rfl⟩ | rfl) | hc
    · exact hT ▸ .inl (.inl ⟨j, hj, rfl⟩)
    · exact hTq _ (by omega)
    · exact hT ▸ .inr (Pool.first_mono (by omega) hc)
  have hZ₁ : ∀ i, num (2 * N) z s₁.memory i = num (2 * N) z s.memory i := fun i =>
    bitsValue_congr fun j hj => congrFun (hch₁.memory _ (hzT j hj)) i
  have hD₁ : ∀ i, num N d s₁.memory i = num N d s.memory i := fun i =>
    bitsValue_congr fun j hj => congrFun (hch₁.memory _ (hdT j hj)) i
  have hf₁ : 8 ≤ s₁.inter.free.length := hin₁ ▸ le_length_alloc (by rw [length_listing]; omega)
  refine Ends.bind (ends_divisionLoop (by omega) hplaces.roll (by omega) hZ₁ hD₁ hdiv₁) ?_
  rintro reff s₂ ⟨hreff, hstep₂, hdiv₂⟩
  have hch₂ : Changes T (20 * N + 44 + (N - 1) * (26 * N + 40)) s s₂ := by
    refine hch₁.step hstep₂ (fun o ho => ?_) fun c hc => hTf c (Pool.first_mono (by omega) hc)
    rcases ho with ⟨j, hj, rfl⟩ | ⟨j, hj, rfl⟩
    · exact hTr _ (Nat.mod_lt _ (by omega))
    · exact hTq j hj
  have hin₂ : s₂.inter = s₁.inter := hstep₂.inter
  have hheld₂ : ∀ c, c ∉ s.inter.free → c ∉ s₂.inter.free := fun c hc =>
    hin₂ ▸ hin₁ ▸ not_free_alloc hc
  have hbase : ∀ j < N, concat N r ext j = r j := fun j hj => if_pos hj
  refine Ends.bind (ends_correction (hin₂ ▸ hf₁) (fun j hj => ?_)
    (fun j hj => hheld₂ _ (h.heldD j hj)) (fun j hj => hheld₂ _ (h.heldR j hj)) h.distinctR
    (fun j l hjl hl => ?_) h.r_ne_d) ?_
  · rw [hreff, iterate_roll hj, hin₂]
    exact hplaces.roll.heldR _ (Nat.mod_lt _ (by omega))
  · rw [hreff, roll_all hN hl, ← hbase j (by omega)]
    intro e
    have := hplaces.distinctR _ (by omega) _ (by omega) e
    omega
  · rintro _ s₃ ⟨hstep₃, hrem⟩
    have hch₃ : Changes T (20 * N + 44 + (N - 1) * (26 * N + 40) + (3 + N * 22)) s s₃ := by
      refine hch₂.step hstep₃ (fun o ho => ?_) (hin₂ ▸ hTf)
      obtain ⟨j, hj, rfl⟩ := ho
      exact hT ▸ .inl (.inl ⟨j, hj, rfl⟩)
    have hin₃ : s₃.inter = s.inter.alloc (listing 2 ext) := by rw [hstep₃.inter, hin₂, hin₁]
    have hext' : ∀ c ∈ listing 2 ext, c ∈ s.inter.free := fun c hc => by
      obtain ⟨i, hi, rfl⟩ := mem_listing.mp hc
      exact Pool.mem_free_of_first (hext i hi)
    refine ends_of_run (run_free fun c hc => hin₃ ▸ (Pool.mem_free.mp (hext' c hc)).1) ?_
    rw [hin₃, Pool.release_alloc fun c hc => (Pool.mem_free.mp (hext' c hc)).2]
    refine ⟨⟨rfl, ?_⟩, fun i => ⟨?_, ?_⟩⟩
    · have hcycles : 26 * N ^ 2 + 56 * N + 7 =
          20 * N + 44 + (N - 1) * (26 * N + 40) + (3 + N * 22) := by
        obtain ⟨M, rfl⟩ := Nat.exists_eq_add_of_le' hN
        rw [Nat.add_sub_cancel]
        ring
      rw [hcycles]
      exact hT ▸ hch₃.withInter _
    · have hq₃ : num N q s₃.memory i = num N q s₂.memory i :=
        hstep₃.num_eq (fun j hj => hheld₂ _ (h.heldQ j hj))
          (fun j hj ⟨l, hl, e⟩ => h.r_ne_q l hl j hj e.symm) i
      rw [withInter_memory, hq₃]
      exact bitsValue_congr fun j hj => hdiv₂.bits i j hj (Nat.zero_le j)
    · have hD₂ : num N d s₂.memory i = num N d s.memory i :=
        bitsValue_congr fun j hj => congrFun (hch₂.memory _ (hdT j hj)) i
      rw [withInter_memory, hrem i, hD₂]
      exact hdiv₂.remainder i

end

/-- What a division leaves, in `26N² + 56N + 7` cycles: the quotient and the remainder where the
quotient fits, and for the divisor zero the complement of the dividend's upper bits. -/
structure Quotients (N : Nat) (z d q r : Nat → Fin cols) (s s' : SerialSimulator cols ι) : Prop where
  divides : ∀ i, 0 < num N d s.memory i → num (2 * N) z s.memory i / num N d s.memory i < 2 ^ N →
    num N q s'.memory i = num (2 * N) z s.memory i / num N d s.memory i ∧
      num N r s'.memory i = num (2 * N) z s.memory i % num N d s.memory i
  byZero : ∀ i, num N d s.memory i = 0 →
    num N q s'.memory i + num (2 * N) z s.memory i / 2 ^ (N + 1) + 1 = 2 ^ N ∧
      num N r s'.memory i = num (2 * N) z s.memory i % 2 ^ N
  latency : s'.latency = s.latency + (26 * N ^ 2 + 56 * N + 7)
  inter : s'.inter = s.inter
  frame : ∀ c, c ∉ s.inter.free → (∀ i < N, c ≠ q i) → (∀ i < N, c ≠ r i) →
    s'.memory c = s.memory c

/-- **`fixedDivision` divides**: no assertion fails, for any operands. -/
theorem fixedDivision_quotients (hN : 1 ≤ N) (hf : 10 ≤ s.inter.free.length)
    (h : Places s N N z d q r) :
    Ends (fixedDivision N z d q r) s fun _ s' => Quotients N z d q r s s' := by
  refine Ends.mono (ends_fixedDivision hN hf h) ?_
  rintro _ s' ⟨hstep, hval⟩
  refine ⟨fun i h0 hz => ?_, fun i h0 => ?_, hstep.changes.latency, hstep.inter, fun c hc hq hr => ?_⟩
  · rw [(hval i).1, (hval i).2]
    exact ⟨nrQuotient_eq h0 num_lt hz, nrRemainder_eq hN h0 num_lt hz⟩
  · rw [(hval i).1, (hval i).2, h0]
    exact ⟨nrQuotient_zero num_lt, nrRemainder_zero hN⟩
  · exact hstep.memory_eq hc fun ho => ho.elim (fun ⟨j, hj, e⟩ => hr j hj e) fun ⟨j, hj, e⟩ => hq j hj e

theorem fixedDivision_quotients_seven :
    Ends (fixedDivision 2 (columns 0) (columns 4) (columns 6) (columns 8))
      (loaded 10 fun c => c < 3 || c == 5 : SerialSimulator 20 Unit) fun _ s' =>
        Quotients 2 (columns 0) (columns 4) (columns 6) (columns 8)
          (loaded 10 fun c => c < 3 || c == 5) s' ∧
        num 2 (columns 6) s'.memory () = 3 ∧ num 2 (columns 8) s'.memory () = 1 := by
  have h : Places (loaded 10 fun c => c < 3 || c == 5 : SerialSimulator 20 Unit) 2 2 (columns 0)
      (columns 4) (columns 6) (columns 8) :=
    { heldZ := held_columns (by decide) (by decide)
      heldD := held_columns (by decide) (by decide)
      heldQ := held_columns (by decide) (by decide)
      heldR := held_columns (by decide) (by decide)
      distinctQ := distinct_columns (by decide)
      distinctR := distinct_columns (by decide)
      q_ne_z := by decide
      q_ne_d := by decide
      r_ne_z := by decide
      r_ne_d := by decide
      r_ne_q := by decide }
  refine (fixedDivision_quotients (by decide) (by decide) h).mono fun _ s' hq => ⟨hq, ?_⟩
  exact hq.divides () (by decide) (by decide)

end

end CimSigmoid.Pim
