import CimSigmoid.Pim.Parallel.Gates
import CimSigmoid.Bits.Sweep
import Mathlib.Data.Nat.Log

/-!
# Sweeps over the partitions

The patterns in which `parallel/AritPIM.py` moves bits over all partitions. Two take a number
of gates that grows with the logarithm of that of the partitions: the prefix operation of the
carries and the broadcast of a bit from the first partition; they are instances of the sweeps of
`Bits.Sweep`. The third is the shift by one partition, in two gates.

A carry of a stretch of partitions is kept in three cells, propagate, its complement and
the complement of generate (`Carries`).
-/

namespace CimSigmoid.Pim.Parallel

open Machine Mem Bits ParallelSimulator

variable {P W : Nat} [NeZero P] {ι : Type}

/-- `ceil(log2(N))`, with an exact logarithm. The source's is a float, which rounds to a whole number
just above the powers of two from `2 ^ 49` on. -/
def levels (N : Nat) : Nat := Nat.clog 2 N

/-- The carries of the output partitions take in those of the input partitions. -/
def combine (pbit notpbit notgbit : Fin W) (inp outp : List (Fin P)) : ParallelM P W ι Unit := do
  perform .not [notgbit] [pbit] inp outp
  perform .not [pbit] [notgbit] outp outp
  initNot notpbit pbit outp
  perform .not [notpbit] [pbit] inp outp
  initNot pbit notpbit outp

def lookahead (N : Nat) (ps : Nat → Fin P) (pbit notpbit notgbit : Fin W) : ParallelM P W ι Unit := do
  forRange (levels N - 1) fun i =>
    combine pbit notpbit notgbit (slice ps (2 ^ i) (N - 2 ^ i) (2 ^ (i + 1)))
      (slice ps (2 ^ (i + 1)) N (2 ^ (i + 1)))
  forRange (levels N) fun i =>
    combine pbit notpbit notgbit
      (slice ps 0 (N - 2 ^ (levels N - i - 1)) (2 ^ (levels N - i)))
      (slice ps (2 ^ (levels N - i - 1)) N (2 ^ (levels N - i)))

/-- The broadcast technique: the bit of `a` in the first partition goes to all. -/
def broadcast (N : Nat) (ps : Nat → Fin P) (a nota : Fin W) : ParallelM P W ι Unit :=
  forRange (levels N) fun i => do
    let inp := slice ps 0 (N - 2 ^ (levels N - i - 1)) (2 ^ (levels N - i))
    let outp := slice ps (2 ^ (levels N - i - 1)) N (2 ^ (levels N - i))
    perform .not [a] [nota] inp outp
    perform .not [nota] [a] outp outp

/-- A gate into the neighbouring partitions, upwards for `(i, j) = (0, 1)` and downwards for `(1, 0)`;
every other pair first, since a gate may not reach over the next one. -/
def shiftOne (g : GateType) (ins : List (Fin W)) (o : Fin W) (N : Nat) (ps : Nat → Fin P) (i j : Nat) :
    ParallelM P W ι Unit := do
  perform g ins [o] (slice ps i (N - j) 2) (slice ps j (N - i) 2)
  perform g ins [o] (slice ps (i + 1) (N - j) 2) (slice ps (j + 1) (N - i) 2)

/-! ## One level -/

def Carries (N : Nat) (ps : Nat → Fin P) (pbit notpbit notgbit : Fin W)
    (mem : Fin W → Fin P → ι → Bool) (A : ι → Nat → Carry) : Prop :=
  ∀ t < N, ∀ r, mem pbit (ps t) r = (A r t).propagate ∧ mem notpbit (ps t) r = !(A r t).propagate ∧
    mem notgbit (ps t) r = !(A r t).generate

section

variable {s : ParallelSimulator P W ι} {ps : Nat → Fin P} {N n st i j : Nat} {p np ng : Fin W}
  {A B : ι → Nat → Carry}

/-- What a level of a sweep does, in positions: those that lie `st` apart from `j` on take in the ones
that lie `st` apart from `i` on. -/
theorem ends_combine (h : Consecutive N ps) (hn : 0 < n) (hi : ∀ k < n, i + st * k < N)
    (hj : ∀ k < n, j + st * k < N) (hij : i ≠ j) (hd : 1 < n → i < j + st ∧ j < i + st)
    (hpn : p ≠ np) (hpg : p ≠ ng) (hng : np ≠ ng) (hA : Carries N ps p np ng s.memory A)
    (hin : ∀ r, ∀ t < N, InStride j n st t → B r t = A r (t + i - j) * A r t)
    (hout : ∀ r, ∀ t < N, ¬InStride j n st t → B r t = A r t) :
    Ends (combine p np ng (strided ps i n st) (strided ps j n st)) s fun _ s' =>
      Step (fun c q => (c = p ∨ c = np ∨ c = ng) ∧ q ∈ strided ps j n st) 0 (7, 7 * n) s s' ∧
      Carries N ps p np ng s'.memory B := by
  have hst : 1 < n → 0 < st := fun h1 => by have := hd h1; omega
  have hS := h.progression hn hst hj
  have h0 := hS.ne_nil
  refine ends_seq (run_not h hn hi hj hd fun e => absurd e hij) ?_
  refine ends_seq (run_andNot hS hpg) ?_
  refine ends_seq (run_initNot hS hpn.symm) ?_
  refine ends_seq (run_not h hn hi hj hd fun e => absurd e hij) ?_
  refine ends_of_run (run_initNot hS hpn) ⟨⟨rfl, ?_⟩, fun t ht r => ?_⟩
  · have hT : ∀ c, c = p ∨ c = np ∨ c = ng → ∀ q ∈ strided ps j n st, Reach (fun c q =>
        (c = p ∨ c = np ∨ c = ng) ∧ q ∈ strided ps j n st) s.inter 0 c q :=
      fun c hc q hq => .inl ⟨hc, hq⟩
    have hp := hT p (.inl rfl)
    refine (((((Changes.refl.fill h0 hp).fill h0 (hT ng (.inr (.inr rfl)))).fill h0 hp).fill h0
      hp).fill h0 (hT np (.inr (.inl rfl)))).of_cost ?_
    rw [length_strided]
    ext <;> simp
    omega
  · obtain ⟨hp, hnp, hg⟩ := hA t ht r
    by_cases ht' : InStride j n st t
    · rw [hin r t ht ht']
      obtain ⟨k, hk, rfl⟩ := ht'
      have hki := hi k hk
      have hsub : j + st * k + i - j = i + st * k := by omega
      have hmem : ps (j + st * k) ∈ strided ps j n st := (h.mem_strided hj ht).mpr ⟨k, hk, rfl⟩
      have hsh : shift i j (ps (j + st * k)) = ps (i + st * k) := by
        rw [h.shift_eq ht (by omega) (by omega), hsub]
      obtain ⟨hp', hnp', hg'⟩ := hA (i + st * k) hki r
      simp only [fill_memory, hmem, if_true, ne_eq, hpn, hpn.symm, hpg, hpg.symm, hng, hng.symm,
        not_false_eq_true, Function.update_of_ne, Function.update_self, hsh, hp, hnp, hnp', hg, hg',
        hsub, Carry.propagate_mul, Carry.generate_mul, Bool.not_not, true_and]
      cases (A r (j + st * k)).generate <;> cases (A r (j + st * k)).propagate <;>
        cases (A r (i + st * k)).generate <;> rfl
    · have hmem : ps t ∉ strided ps j n st := fun hm => ht' ((h.mem_strided hj ht).mp hm)
      rw [hout r t ht ht']
      simp only [fill_memory, hmem, if_false, ne_eq, hpn, hpn.symm, hpg, hpg.symm, hng, hng.symm,
        not_false_eq_true, Function.update_of_ne, Function.update_self, hp, hnp, hg, and_self]

end

/-! ## Positions of a slice -/

section

variable {N a b st t k m i n : Nat}

theorem slice_lt (hst : 0 < st) (hk : k < (b - a + (st - 1)) / st) : a + st * k < b := by
  have := (Nat.le_div_iff_mul_le hst).mp (Nat.succ_le_of_lt hk)
  rw [Nat.succ_mul, Nat.mul_comm] at this
  omega

theorem inStride_slice (hst : 0 < st) (ht : t < N) :
    InStride a ((N - a + (st - 1)) / st) st t ↔ a ≤ t ∧ (t - a) % st = 0 := by
  constructor
  · rintro ⟨k, -, rfl⟩
    rw [Nat.add_sub_cancel_left, Nat.mul_mod_right]
    exact ⟨Nat.le_add_right .., rfl⟩
  · rintro ⟨ha, hm⟩
    refine ⟨(t - a) / st, ?_, ?_⟩
    · rw [Nat.lt_iff_add_one_le, Nat.le_div_iff_mul_le hst, Nat.succ_mul, Nat.div_mul_cancel
        (Nat.dvd_of_mod_eq_zero hm)]
      omega
    · rw [Nat.mul_div_cancel' (Nat.dvd_of_mod_eq_zero hm)]
      omega

theorem two_pow_lt_of_lt_levels (h : m < levels N) : 2 ^ m < N :=
  (Nat.lt_clog_iff_pow_lt Nat.one_lt_two).mp h

theorem le_two_pow_levels (N : Nat) : N ≤ 2 ^ levels N := Nat.le_pow_clog Nat.one_lt_two N

theorem count_up (h : 2 ^ (i + 1) < N) :
    (N - 2 ^ (i + 1) + (2 ^ (i + 1) - 1)) / 2 ^ (i + 1) = (N - 1) / 2 ^ (i + 1) := by
  have := Nat.two_pow_pos (i + 1)
  rw [show N - 2 ^ (i + 1) + (2 ^ (i + 1) - 1) = N - 1 by omega]

theorem inStride_up (h : 2 ^ (i + 1) < N) (ht : t < N) :
    InStride (2 ^ (i + 1)) ((N - 1) / 2 ^ (i + 1)) (2 ^ (i + 1)) t ↔
      t % 2 ^ (i + 1) = 0 ∧ 0 < t := by
  have hp := Nat.two_pow_pos (i + 1)
  rw [← count_up h, inStride_slice hp ht]
  constructor
  · rintro ⟨hle, hm⟩
    rw [← Nat.mod_eq_sub_mod hle] at hm
    exact ⟨hm, by omega⟩
  · rintro ⟨hm, h0⟩
    have hle := Nat.le_of_dvd h0 (Nat.dvd_of_mod_eq_zero hm)
    exact ⟨hle, by rw [← Nat.mod_eq_sub_mod hle, hm]⟩

theorem count_down (h : 2 ^ m < N) :
    (N - 1) / 2 ^ (m + 1) + (N - 2 ^ m + (2 ^ (m + 1) - 1)) / 2 ^ (m + 1) = (N - 1) / 2 ^ m := by
  have := Nat.two_pow_pos m
  have hs : 2 ^ (m + 1) = 2 ^ m * 2 := pow_succ 2 m
  rw [hs, ← Nat.div_div_eq_div_mul, ← Nat.div_div_eq_div_mul,
    show N - 2 ^ m + (2 ^ m * 2 - 1) = N - 1 + 2 ^ m by omega, Nat.add_div_right _ this]
  omega

theorem inStride_down (ht : t < N) :
    InStride (2 ^ m) ((N - 2 ^ m + (2 ^ (m + 1) - 1)) / 2 ^ (m + 1)) (2 ^ (m + 1)) t ↔
      t % 2 ^ (m + 1) = 2 ^ m := by
  have hp := Nat.two_pow_pos m
  have hs : 2 ^ (m + 1) = 2 ^ m * 2 := pow_succ 2 m
  rw [inStride_slice (Nat.two_pow_pos (m + 1)) ht]
  constructor
  · rintro ⟨hle, hm⟩
    rw [← Nat.sub_add_cancel hle, Nat.add_mod, hm, Nat.zero_add, Nat.mod_mod,
      Nat.mod_eq_of_lt (by omega)]
  · intro hm
    have hle : 2 ^ m ≤ t := by
      rw [← hm]
      exact Nat.mod_le ..
    refine ⟨hle, ?_⟩
    rw [Nat.sub_mod_eq_zero_of_mod_eq]
    rw [hm, Nat.mod_eq_of_lt (by omega)]

end

/-! ## The sweeps -/

def upNodes (N : Nat) : Nat → Nat
  | 0 => 0
  | n + 1 => upNodes N n + (N - 1) / 2 ^ (n + 1)

section

variable {T : Fin W → Fin P → Prop} {s : ParallelSimulator P W ι} {k n : Nat}

omit [NeZero P] in
theorem ends_loop {body : Nat → ParallelM P W ι Unit} {w C : Nat → Nat × Nat}
    (I : Nat → (Fin W → Fin P → ι → Bool) → Prop) (hC : C 0 = 0)
    (hw : ∀ i < n, C (i + 1) = C i + w i) (h0 : I 0 s.memory)
    (hbody : ∀ i < n, ∀ s', Step T k (C i) s s' → I i s'.memory →
      Ends (body i) s' fun _ s'' => Step T k (w i) s' s'' ∧ I (i + 1) s''.memory) :
    Ends (forRange n body) s fun _ s' => Step T k (C n) s s' ∧ I n s'.memory := by
  refine ends_forRange (fun i s' => Step T k (C i) s s' ∧ I i s'.memory) ?_ ?_
  · rw [hC]
    exact ⟨.refl, h0⟩
  · rintro i hi s' ⟨hs, hI⟩
    refine (hbody i hi s' hs hI).mono fun _ s'' h => ⟨?_, h.2⟩
    rw [hw i hi]
    exact hs.trans h.1

end

section

variable {s : ParallelSimulator P W ι} {ps : Nat → Fin P} {N : Nat} {p np ng : Fin W}
  {A : ι → Nat → Carry}

theorem ends_upSweep (h : Consecutive N ps) (hpn : p ≠ np) (hpg : p ≠ ng) (hng : np ≠ ng)
    (hA : Carries N ps p np ng s.memory A) :
    Ends (forRange (levels N - 1) fun i =>
      combine p np ng (slice ps (2 ^ i) (N - 2 ^ i) (2 ^ (i + 1)))
        (slice ps (2 ^ (i + 1)) N (2 ^ (i + 1)))) s fun _ s' =>
      Step (fun c q => (c = p ∨ c = np ∨ c = ng) ∧ q ∈ span N ps) 0
        (7 * (levels N - 1), 7 * upNodes N (levels N - 1)) s s' ∧
      Carries N ps p np ng s'.memory fun r => upSweep (A r) (levels N - 1) := by
  refine ends_loop (w := fun i => (7, 7 * ((N - 1) / 2 ^ (i + 1))))
    (C := fun i => (7 * i, 7 * upNodes N i))
    (fun i mem => Carries N ps p np ng mem fun r => upSweep (A r) i) rfl
    (fun i _ => by ext <;> simp [upNodes] <;> ring) hA fun i hi s' _ hI => ?_
  have hlt : 2 ^ (i + 1) < N := two_pow_lt_of_lt_levels (by omega)
  have hs : 2 ^ (i + 1) = 2 ^ i + 2 ^ i := by ring
  have hp := Nat.two_pow_pos i
  have hcount := count_up hlt
  have hb : ∀ k < (N - 1) / 2 ^ (i + 1), 2 ^ (i + 1) + 2 ^ (i + 1) * k < N := fun k hk =>
    slice_lt (Nat.two_pow_pos _) (by rwa [hcount])
  rw [slice, slice, show N - 2 ^ i - 2 ^ i = N - 2 ^ (i + 1) by omega, hcount]
  refine Ends.mono (ends_combine (B := fun r => upSweep (A r) (i + 1)) h ?_ (fun k hk => ?_) hb
    (by omega) (by omega) hpn hpg hng hI (fun r t ht hin => ?_) fun r t ht hout => ?_) ?_
  · exact Nat.div_pos (by omega) (Nat.two_pow_pos _)
  · have := hb k hk
    omega
  · rw [inStride_up hlt ht] at hin
    have hle := Nat.le_of_dvd hin.2 (Nat.dvd_of_mod_eq_zero hin.1)
    rw [upSweep, upStep, if_pos hin, show t + 2 ^ i - 2 ^ (i + 1) = t - 2 ^ i by omega]
  · rw [inStride_up hlt ht] at hout
    rw [upSweep, upStep, if_neg hout]
  · rintro _ s'' ⟨hstep, hI'⟩
    refine ⟨hstep.mono (fun c q => And.imp_right fun hq => ?_) (Nat.le_refl 0), hI'⟩
    obtain ⟨k, hk, rfl⟩ := mem_strided.mp hq
    exact mem_span.mpr ⟨_, hb k hk, rfl⟩

theorem ends_downLevel {m : Nat} (h : Consecutive N ps) (hm : 2 ^ m < N) (hpn : p ≠ np) (hpg : p ≠ ng)
    (hng : np ≠ ng) (hA : Carries N ps p np ng s.memory A) :
    Ends (combine p np ng (slice ps 0 (N - 2 ^ m) (2 ^ (m + 1))) (slice ps (2 ^ m) N (2 ^ (m + 1)))) s
      fun _ s' => Step (fun c q => (c = p ∨ c = np ∨ c = ng) ∧ q ∈ span N ps) 0
        (7, 7 * ((N - 2 ^ m + (2 ^ (m + 1) - 1)) / 2 ^ (m + 1))) s s' ∧
      Carries N ps p np ng s'.memory fun r => downStep (· * ·) m (A r) := by
  have hs : 2 ^ (m + 1) = 2 ^ m + 2 ^ m := by ring
  have hp := Nat.two_pow_pos m
  obtain ⟨n, hn⟩ : ∃ n, n = (N - 2 ^ m + (2 ^ (m + 1) - 1)) / 2 ^ (m + 1) := ⟨_, rfl⟩
  have hb : ∀ k < n, 2 ^ m + 2 ^ (m + 1) * k < N := fun k hk =>
    slice_lt (Nat.two_pow_pos _) (hn ▸ hk)
  have hin : ∀ t < N, InStride (2 ^ m) n (2 ^ (m + 1)) t ↔ t % 2 ^ (m + 1) = 2 ^ m :=
    fun t ht => hn ▸ inStride_down ht
  rw [slice, slice, Nat.sub_zero, ← hn]
  refine Ends.mono (ends_combine (B := fun r => downStep (· * ·) m (A r)) h ?_
    (fun k hk => ?_) hb (by omega) (by omega) hpn hpg hng hA (fun r t ht h' => ?_)
    fun r t ht h' => ?_) ?_
  · rw [hn]
    exact Nat.div_pos (by omega) (Nat.two_pow_pos _)
  · have := hb k hk
    omega
  · rw [hin t ht] at h'
    rw [downStep, if_pos h', Nat.add_zero]
  · rw [hin t ht] at h'
    rw [downStep, if_neg h']
  · rintro _ s'' ⟨hstep, hI'⟩
    refine ⟨hstep.mono (fun c q => And.imp_right fun hq => ?_) (Nat.le_refl 0), hI'⟩
    obtain ⟨k, hk, rfl⟩ := mem_strided.mp hq
    exact mem_span.mpr ⟨_, hb k hk, rfl⟩

omit [NeZero P] in
theorem div_two_pow_levels (N : Nat) : (N - 1) / 2 ^ levels N = 0 := by
  have := le_two_pow_levels N
  have := Nat.two_pow_pos (levels N)
  exact Nat.div_eq_of_lt (by omega)

theorem ends_downSweep (h : Consecutive N ps) (hpn : p ≠ np) (hpg : p ≠ ng) (hng : np ≠ ng)
    (hA : Carries N ps p np ng s.memory A) :
    Ends (forRange (levels N) fun i =>
      combine p np ng (slice ps 0 (N - 2 ^ (levels N - i - 1)) (2 ^ (levels N - i)))
        (slice ps (2 ^ (levels N - i - 1)) N (2 ^ (levels N - i)))) s fun _ s' =>
      Step (fun c q => (c = p ∨ c = np ∨ c = ng) ∧ q ∈ span N ps) 0
        (7 * levels N, 7 * (N - 1)) s s' ∧
      Carries N ps p np ng s'.memory fun r => downSweep (· * ·) (levels N) (A r) (levels N) := by
  refine Ends.mono (ends_loop (T := fun c q => (c = p ∨ c = np ∨ c = ng) ∧ q ∈ span N ps) (k := 0)
    (w := fun i => (7, 7 * ((N - 2 ^ (levels N - i - 1) + (2 ^ (levels N - i) - 1)) /
      2 ^ (levels N - i))))
    (C := fun i => (7 * i, 7 * ((N - 1) / 2 ^ (levels N - i))))
    (fun i mem => Carries N ps p np ng mem fun r => downSweep (· * ·) (levels N) (A r) i)
    (by simp [div_two_pow_levels]) (fun i hi => ?_) hA fun i hi s' _ hI => ?_) fun _ s' h => ?_
  · obtain ⟨m, hm⟩ : ∃ m, levels N - i = m + 1 := ⟨levels N - i - 1, by omega⟩
    have := count_down (two_pow_lt_of_lt_levels (show m < levels N by omega))
    ext
    · simp
      omega
    · simp only [Prod.snd_add, ← Nat.sub_sub, hm, Nat.add_sub_cancel]
      omega
  · obtain ⟨m, hm⟩ : ∃ m, levels N - i = m + 1 := ⟨levels N - i - 1, by omega⟩
    simp only [downSweep, hm, Nat.add_sub_cancel]
    exact ends_downLevel h (two_pow_lt_of_lt_levels (by omega)) hpn hpg hng hI
  · simpa using h

/-- **The prefix operation** leaves in every partition the carry of all partitions up to it. -/
theorem ends_lookahead (h : Consecutive N ps) (hpn : p ≠ np) (hpg : p ≠ ng) (hng : np ≠ ng)
    (hA : Carries N ps p np ng s.memory A) :
    Ends (lookahead N ps p np ng) s fun _ s' =>
      Step (fun c q => (c = p ∨ c = np ∨ c = ng) ∧ q ∈ span N ps) 0
        (7 * (levels N - 1) + 7 * levels N, 7 * (upNodes N (levels N - 1) + (N - 1))) s s' ∧
      ∀ t < N, ∀ r, s'.memory ng (ps t) r = !(block (A r) 0 (t + 1)).generate := by
  refine Ends.bind (ends_upSweep h hpn hpg hng hA) ?_
  rintro _ s₁ ⟨hstep₁, hA₁⟩
  refine Ends.mono (ends_downSweep h hpn hpg hng hA₁) ?_
  rintro _ s₂ ⟨hstep₂, hA₂⟩
  refine ⟨(hstep₁.trans hstep₂).of_cost (by ext <;> simp; ring), fun t ht r => ?_⟩
  rw [(hA₂ t ht r).2.2]
  exact congrArg (fun c : Carry => !c.generate)
    (downSweep_upSweep (A r) (ht.trans_le (le_two_pow_levels N)))

end

/-! ## The broadcast -/

/-- What a level of the broadcast makes of the bit and its complement, from those of the partition
it reads. -/
def relay (x y : Bool × Bool) : Bool × Bool := (y.1 && !(y.2 && !x.1), y.2 && !x.1)

section

variable {s : ParallelSimulator P W ι} {ps : Nat → Fin P} {N : Nat} {a na : Fin W}
  {B : ι → Nat → Bool × Bool}

theorem ends_relay {m : Nat} (h : Consecutive N ps) (hm : 2 ^ m < N) (hne : a ≠ na)
    (hB : ∀ t < N, ∀ r, s.memory a (ps t) r = (B r t).1 ∧ s.memory na (ps t) r = (B r t).2) :
    Ends (do
        perform .not [a] [na] (slice ps 0 (N - 2 ^ m) (2 ^ (m + 1))) (slice ps (2 ^ m) N (2 ^ (m + 1)))
        perform .not [na] [a] (slice ps (2 ^ m) N (2 ^ (m + 1))) (slice ps (2 ^ m) N (2 ^ (m + 1))))
      s fun _ s' => Step (fun c q => (c = a ∨ c = na) ∧ q ∈ span N ps) 0
        (2, 2 * ((N - 2 ^ m + (2 ^ (m + 1) - 1)) / 2 ^ (m + 1))) s s' ∧
      ∀ t < N, ∀ r, s'.memory a (ps t) r = (downStep relay m (B r) t).1 ∧
        s'.memory na (ps t) r = (downStep relay m (B r) t).2 := by
  have hs : 2 ^ (m + 1) = 2 ^ m + 2 ^ m := by ring
  have hp := Nat.two_pow_pos m
  obtain ⟨n, hn⟩ : ∃ n, n = (N - 2 ^ m + (2 ^ (m + 1) - 1)) / 2 ^ (m + 1) := ⟨_, rfl⟩
  have hb : ∀ k < n, 2 ^ m + 2 ^ (m + 1) * k < N := fun k hk =>
    slice_lt (Nat.two_pow_pos _) (hn ▸ hk)
  have hn0 : 0 < n := by
    rw [hn]
    exact Nat.div_pos (by omega) (Nat.two_pow_pos _)
  have hin : ∀ t < N, InStride (2 ^ m) n (2 ^ (m + 1)) t ↔ t % 2 ^ (m + 1) = 2 ^ m :=
    fun t ht => hn ▸ inStride_down ht
  have hS := h.progression hn0 (fun _ => Nat.two_pow_pos (m + 1)) hb
  have h0 := hS.ne_nil
  rw [slice, slice, Nat.sub_zero, ← hn]
  refine ends_seq (run_not h hn0 (fun k hk => by have := hb k hk; omega) hb (by omega)
    fun e => absurd e (by omega)) ?_
  refine ends_of_run (run_andNot hS hne.symm) ⟨⟨rfl, ?_⟩, fun t ht r => ?_⟩
  · have hT : ∀ c, c = a ∨ c = na → ∀ q ∈ strided ps (2 ^ m) n (2 ^ (m + 1)), Reach (fun c q =>
        (c = a ∨ c = na) ∧ q ∈ span N ps) s.inter 0 c q := by
      rintro c hc q hq
      obtain ⟨k, hk, rfl⟩ := mem_strided.mp hq
      exact .inl ⟨hc, mem_span.mpr ⟨_, hb k hk, rfl⟩⟩
    refine ((Changes.refl.fill h0 (hT na (.inr rfl))).fill h0 (hT a (.inl rfl))).of_cost ?_
    rw [length_strided]
    ext <;> simp
    omega
  · obtain ⟨ha, hna⟩ := hB t ht r
    by_cases ht' : InStride (2 ^ m) n (2 ^ (m + 1)) t
    · have hmem := (h.mem_strided hb ht).mpr ht'
      have hmod := (hin t ht).mp ht'
      have hle : 2 ^ m ≤ t := hmod ▸ Nat.mod_le ..
      have hsh : shift 0 (2 ^ m) (ps t) = ps (t - 2 ^ m) := by
        rw [h.shift_eq ht (by omega) hle, Nat.add_zero]
      have ha' := (hB (t - 2 ^ m) (by omega) r).1
      simp only [fill_memory, hmem, if_true, ne_eq, hne, hne.symm, not_false_eq_true,
        Function.update_of_ne, Function.update_self, hsh, ha, hna, ha', downStep, if_pos hmod, relay,
        and_self]
    · have hmem : ps t ∉ strided ps (2 ^ m) n (2 ^ (m + 1)) :=
        fun hm => ht' ((h.mem_strided hb ht).mp hm)
      have hmod : ¬t % 2 ^ (m + 1) = 2 ^ m := fun e => ht' ((hin t ht).mpr e)
      simp only [fill_memory, hmem, if_false, ne_eq, hne, hne.symm, not_false_eq_true,
        Function.update_of_ne, Function.update_self, ha, hna, downStep, if_neg hmod, and_self]

/-- **The broadcast**: all partitions get the bit that the first one has. -/
theorem ends_broadcast {b : ι → Bool} (h : Consecutive N ps) (hne : a ≠ na)
    (hfirst : ∀ r, s.memory a (ps 0) r = b r)
    (hone : ∀ t < N, 0 < t → ∀ r, s.memory a (ps t) r = true ∧ s.memory na (ps t) r = true) :
    Ends (broadcast N ps a na) s fun _ s' =>
      Step (fun c q => (c = a ∨ c = na) ∧ q ∈ span N ps) 0 (2 * levels N, 2 * (N - 1)) s s' ∧
      ∀ t < N, ∀ r, s'.memory a (ps t) r = b r ∧
        s'.memory na (ps t) r = if t = 0 then s.memory na (ps 0) r else !b r := by
  obtain ⟨B, hB⟩ : ∃ B : ι → Nat → Bool × Bool,
      B = fun r t => if t = 0 then (b r, s.memory na (ps 0) r) else (true, true) := ⟨_, rfl⟩
  have hB0 : ∀ t < N, ∀ r, s.memory a (ps t) r = (B r t).1 ∧ s.memory na (ps t) r = (B r t).2 := by
    intro t ht r
    rw [hB]
    rcases Nat.eq_zero_or_pos t with rfl | h0
    · exact ⟨hfirst r, rfl⟩
    · simpa [Nat.pos_iff_ne_zero.mp h0] using hone t ht h0 r
  refine Ends.mono (ends_loop (T := fun c q => (c = a ∨ c = na) ∧ q ∈ span N ps) (k := 0)
    (w := fun i => (2, 2 * ((N - 2 ^ (levels N - i - 1) + (2 ^ (levels N - i) - 1)) /
      2 ^ (levels N - i))))
    (C := fun i => (2 * i, 2 * ((N - 1) / 2 ^ (levels N - i))))
    (fun i mem => ∀ t < N, ∀ r, mem a (ps t) r = (downSweep relay (levels N) (B r) i t).1 ∧
      mem na (ps t) r = (downSweep relay (levels N) (B r) i t).2)
    (by simp [div_two_pow_levels]) (fun i hi => ?_) hB0 fun i hi s' _ hI => ?_)
    fun _ s' hs' => ⟨by simpa using hs'.1, fun t ht r => ?_⟩
  · obtain ⟨m, hm⟩ : ∃ m, levels N - i = m + 1 := ⟨levels N - i - 1, by omega⟩
    have := count_down (two_pow_lt_of_lt_levels (show m < levels N by omega))
    ext
    · simp
      omega
    · simp only [Prod.snd_add, ← Nat.sub_sub, hm, Nat.add_sub_cancel]
      omega
  · obtain ⟨m, hm⟩ : ∃ m, levels N - i = m + 1 := ⟨levels N - i - 1, by omega⟩
    simp only [downSweep, hm, Nat.add_sub_cancel]
    exact ends_relay h (two_pow_lt_of_lt_levels (by omega)) hne hI
  · have hall := downSweep_induction relay (B r) (L := levels N) (fun t x => x.1 = b r ∧
      x.2 = if t = 0 then s.memory na (ps 0) r else !b r) (by simp [hB]) ?_
      (ht.trans_le (le_two_pow_levels N))
    · rw [(hs'.2 t ht r).1, (hs'.2 t ht r).2]
      exact hall
    · rintro v k ⟨x, nx⟩ - ⟨rfl, -⟩
      have hpos : 2 ^ v * (2 * k + 1) ≠ 0 := by positivity
      simp [hB, relay, hpos]

end

/-! ## The shift -/

section

variable {s : ParallelSimulator P W ι} {ps : Nat → Fin P} {N i j : Nat} {o : Fin W} {g : GateType}
  {ins : List (Fin W)}

/-- **The shift by one partition**: every partition but the last one of the direction reaches its
neighbour. -/
theorem ends_shiftOne (hg : Logic g ins) (h : Consecutive N ps) (hN : 3 ≤ N) (hij : i + j = 1)
    (ho : o ∉ ins) :
    Ends (shiftOne g ins o N ps i j) s fun _ s' =>
      Step (fun c q => c = o ∧ q ∈ span N ps) 0 (2, N - 1) s s' ∧
      (∀ t, t + 1 < N → ∀ r, s'.memory o (ps (j + t)) r =
        (s.memory o (ps (j + t)) r && !ins.any fun c => s.memory c (ps (i + t)) r)) ∧
      ∀ t < N, t < j ∨ N ≤ t + i → s'.memory o (ps t) = s.memory o (ps t) := by
  have hb1 : ∀ k < N / 2, 2 * k + 1 < N := fun k hk => by omega
  have hb2 : ∀ k < (N - 1) / 2, 2 * k + 2 < N := fun k hk => by omega
  have hj1 : ∀ k < N / 2, j + 2 * k < N := fun k hk => by have := hb1 k hk; omega
  have hj2 : ∀ k < (N - 1) / 2, j + 1 + 2 * k < N := fun k hk => by have := hb2 k hk; omega
  have hkeep : ∀ (mem : Fin W → Fin P → ι → Bool) (v : Fin P → ι → Bool) q r,
      (ins.any fun c => Function.update mem o v c q r) = ins.any fun c => mem c q r := by
    intro mem v q r
    refine Bool.eq_iff_iff.mpr ?_
    simp only [List.any_eq_true]
    refine exists_congr fun c => and_congr_right fun hc => ?_
    have hco : c ≠ o := fun e => ho (e ▸ hc)
    rw [Function.update_of_ne hco]
  rw [shiftOne, slice, slice, slice, slice, show (N - j - i + (2 - 1)) / 2 = N / 2 by omega,
    show (N - i - j + (2 - 1)) / 2 = N / 2 by omega,
    show (N - j - (i + 1) + (2 - 1)) / 2 = (N - 1) / 2 by omega,
    show (N - i - (j + 1) + (2 - 1)) / 2 = (N - 1) / 2 by omega]
  refine ends_seq (run_logic hg h (by omega) (fun k hk => by have := hb1 k hk; omega) hj1 (by omega)
    fun e => absurd e (by omega)) ?_
  refine ends_of_run (run_logic hg h (by omega) (fun k hk => by have := hb2 k hk; omega) hj2 (by omega)
    fun e => absurd e (by omega)) ⟨⟨rfl, ?_⟩, fun t ht r => ?_, fun t ht hout => ?_⟩
  · refine ((Changes.refl.fill (List.ne_nil_of_length_pos ?_) fun q hq => ?_).fill
      (List.ne_nil_of_length_pos ?_) fun q hq => ?_).of_cost ?_
    · rw [length_strided]
      omega
    · obtain ⟨k, hk, rfl⟩ := mem_strided.mp hq
      exact .inl ⟨rfl, mem_span.mpr ⟨_, hj1 k hk, rfl⟩⟩
    · rw [length_strided]
      omega
    · obtain ⟨k, hk, rfl⟩ := mem_strided.mp hq
      exact .inl ⟨rfl, mem_span.mpr ⟨_, hj2 k hk, rfl⟩⟩
    · rw [length_strided, length_strided]
      ext <;> simp
      omega
  · have hm1 : ps (j + t) ∈ strided ps j (N / 2) 2 ↔ t % 2 = 0 := by
      rw [h.mem_strided hj1 (by omega)]
      constructor
      · rintro ⟨k, -, e⟩
        omega
      · intro e
        exact ⟨t / 2, by omega, by omega⟩
    have hm2 : ps (j + t) ∈ strided ps (j + 1) ((N - 1) / 2) 2 ↔ t % 2 = 1 := by
      rw [h.mem_strided hj2 (by omega)]
      constructor
      · rintro ⟨k, -, e⟩
        omega
      · intro e
        exact ⟨t / 2, by omega, by omega⟩
    have hsh : shift i j (ps (j + t)) = ps (i + t) := by
      rw [h.shift_eq (by omega) (by omega) (by omega), show j + t + i - j = i + t by omega]
    have hsh' : shift (i + 1) (j + 1) (ps (j + t)) = shift i j (ps (j + t)) := by
      refine Fin.ext ?_
      rw [shift, shift, Fin.val_ofNat, Fin.val_ofNat, show (ps (j + t) : Nat) + (i + 1) - (j + 1) =
        ps (j + t) + i - j by omega]
    rcases Nat.mod_two_eq_zero_or_one t with e | e
    · simp only [fill_memory, Function.update_self, hm1, hm2, e, if_true, hsh, zero_ne_one, if_false]
    · simp only [fill_memory, Function.update_self, hm1, hm2, e, if_true, hsh', hsh, one_ne_zero,
        if_false, hkeep]
  · have hm1 : ps t ∉ strided ps j (N / 2) 2 := fun hm => by
      obtain ⟨k, hk, e⟩ := (h.mem_strided hj1 ht).mp hm
      have := hb1 k hk
      omega
    have hm2 : ps t ∉ strided ps (j + 1) ((N - 1) / 2) 2 := fun hm => by
      obtain ⟨k, hk, e⟩ := (h.mem_strided hj2 ht).mp hm
      have := hb2 k hk
      omega
    simp only [fill_memory, Function.update_self, if_neg hm1, if_neg hm2]

end

end CimSigmoid.Pim.Parallel
