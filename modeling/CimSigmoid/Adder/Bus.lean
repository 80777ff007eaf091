import CimSigmoid.Adder.Top

/-!
# The adder wrapper on the bus

Both sides are a response `Slot` fed by requests, and on both sides the
request is accepted without a look at the slot. A write executed while an
earlier response is stalled overwrites that response (`write_responses_iff`).
A read accepted while an earlier response is pending is not captured at all
(`read_responses_iff`).
-/

namespace CimSigmoid.Adder

open Clocked

section

variable (m n : Nat) (inp : Nat → SAxi)

def awXfer : Nat → Bool :=
  xfer (fun t => (inp t).awvalid) (fun t => (topAt m n inp t).wr.awready)

def wXfer : Nat → Bool :=
  xfer (fun t => (inp t).wvalid) (fun t => (topAt m n inp t).wr.wready)

def bXfer : Nat → Bool :=
  xfer (fun t => (topAt m n inp t).wr.bvalid) (fun t => (inp t).bready)

def arXfer : Nat → Bool :=
  xfer (fun t => (inp t).arvalid) (fun t => (topAt m n inp t).rd.arready)

def rXfer : Nat → Bool :=
  xfer (fun t => (topAt m n inp t).rd.rvalid) (fun t => (inp t).rready)

/-- A master that keeps `valid` and the payload on AW, W and AR until the matching `ready`. -/
structure StableMaster : Prop where
  aw : Held (fun t => (inp t).awvalid) (fun t => (topAt m n inp t).wr.awready)
    (fun t => (inp t).awaddr)
  w : Held (fun t => (inp t).wvalid) (fun t => (topAt m n inp t).wr.wready)
    (fun t => ((inp t).wdata, (inp t).wstrb))
  ar : Held (fun t => (inp t).arvalid) (fun t => (topAt m n inp t).rd.arready)
    (fun t => (inp t).araddr)

/-! ## Writes -/

theorem write_slot : Slot (fun t => executes (inp t) (topAt m n inp t))
    (fun t => (topAt m n inp t).wr.bvalid) (fun t => (inp t).bready) where
  full_zero := rfl
  full_succ t := by rw [topAt_succ, edge_bvalid]

variable {m n inp}

theorem wready_eq (t : Nat) : (topAt m n inp t).wr.wready = (topAt m n inp t).wr.awready := by
  cases t with
  | zero => rfl
  | succ t => rw [topAt_succ, edge_wready, edge_awready]

theorem StableMaster.valid_of_ready (h : StableMaster m n inp) {t : Nat}
    (hr : (topAt m n inp t).wr.awready = true) :
    (inp t).awvalid = true ∧ (inp t).wvalid = true := by
  cases t with
  | zero => cases hr
  | succ t =>
    rw [topAt_succ, edge_awready] at hr
    simp only [Bool.and_eq_true, Bool.not_eq_true'] at hr
    obtain ⟨⟨hn, ha⟩, hw⟩ := hr
    exact ⟨(h.aw t ha hn).1, (h.w t hw ((wready_eq t).trans hn)).1⟩

/-- A stable master transfers AW and W together, at the edges that execute the write. -/
theorem StableMaster.xfer_eq (h : StableMaster m n inp) (t : Nat) :
    awXfer m n inp t = executes (inp t) (topAt m n inp t) ∧
    wXfer m n inp t = executes (inp t) (topAt m n inp t) := by
  simp only [awXfer, wXfer, xfer, executes, wready_eq]
  cases hr : (topAt m n inp t).wr.awready with
  | false => simp
  | true => simp [h.valid_of_ready hr]

/-- **When every write has its own response.** The responses account for the writes executed
exactly when no write is executed while a response is stalled. For a stable master the writes
executed are what AW and W transfer. -/
theorem write_responses_iff (m n : Nat) (inp : Nat → SAxi) :
    ((∀ t, Nat.count (fun u => bXfer m n inp u = true) t + (topAt m n inp t).wr.bvalid.toNat =
        Nat.count (fun u => executes (inp u) (topAt m n inp u) = true) t) ↔
      ∀ t, (topAt m n inp t).wr.bvalid = true → (inp t).bready = false →
        executes (inp t) (topAt m n inp t) = false) ∧
    (StableMaster m n inp → ∀ t, awXfer m n inp t = executes (inp t) (topAt m n inp t) ∧
      wXfer m n inp t = executes (inp t) (topAt m n inp t)) := by
  refine ⟨(write_slot m n inp).count_put_iff.trans (forall_congr' fun t => ?_), fun h => h.xfer_eq⟩
  cases hb : (topAt m n inp t).wr.bvalid <;> cases hr : (inp t).bready <;> simp [overrun, hb, hr]

/-- Two writes of A by a master that does not take responses while it writes. -/
def stalledWrites : Nat → SAxi :=
  SAxi.play (List.replicate 4 { SAxi.write 0x00 1 with bready := false })

theorem stalledWrites_stable : StableMaster 16 4 stalledWrites where
  aw
    | 0, _, _ => ⟨rfl, rfl⟩
    | 1, _, hr => absurd hr (by decide)
    | 2, _, _ => ⟨rfl, rfl⟩
    | 3, _, hr => absurd hr (by decide)
    | t + 4, hv, _ => by simp [stalledWrites, SAxi.play, SAxi.idle] at hv
  w
    | 0, _, _ => ⟨rfl, rfl⟩
    | 1, _, hr => absurd hr (by decide)
    | 2, _, _ => ⟨rfl, rfl⟩
    | 3, _, hr => absurd hr (by decide)
    | t + 4, hv, _ => by simp [stalledWrites, SAxi.play, SAxi.idle] at hv
  ar t hv _ := by
    simp only [stalledWrites, SAxi.play_replicate] at hv
    split at hv <;> cases hv

/-- Two writes are executed by edge 4, with one response between them. -/
theorem stalledWrites_merged : StableMaster 16 4 stalledWrites ∧
    ¬ ∀ t, Nat.count (fun u => bXfer 16 4 stalledWrites u = true) t +
        (topAt 16 4 stalledWrites t).wr.bvalid.toNat =
      Nat.count (fun u => executes (stalledWrites u) (topAt 16 4 stalledWrites u) = true) t :=
  ⟨stalledWrites_stable, fun h => absurd (h 4) (by decide +kernel)⟩

/-! ## Reads -/

variable (m n inp)

theorem read_slot : Slot (fun t => captures (inp t) (topAt m n inp t))
    (fun t => (topAt m n inp t).rd.rvalid) (fun t => (inp t).rready) where
  full_zero := rfl
  full_succ t := by rw [topAt_succ, edge_rvalid]

theorem read_no_overrun (t : Nat) : overrun (fun t => captures (inp t) (topAt m n inp t))
    (fun t => (topAt m n inp t).rd.rvalid) (fun t => (inp t).rready) t = false := by
  cases h : (topAt m n inp t).rd.rvalid <;> simp [overrun, captures, h]

theorem log_captures (t : Nat) :
    log (sampled (fun u => captures (inp u) (topAt m n inp u))
      (fun u => readReg (inp u).araddr (topAt m n inp u))) t =
    log (sampled (rXfer m n inp) (fun u => (topAt m n inp u).rd.rdata)) t ++
      (if (topAt m n inp t).rd.rvalid then [(topAt m n inp t).rd.rdata] else []) :=
  (read_slot m n inp).log_put (read_no_overrun m n inp)
    (fun u => by rw [topAt_succ, edge_rdata]) t

variable {m n inp}

theorem arXfer_of_captures {t : Nat} (h : captures (inp t) (topAt m n inp t) = true) :
    arXfer m n inp t = true := by
  simp only [captures, Bool.and_eq_true] at h
  simp [arXfer, xfer, h]

/-- **When every read accepted is answered.** The responses account for the AR transfers, in order
and each with the register its address selects, exactly when no AR transfer finds a response
pending. -/
theorem read_responses_iff (m n : Nat) (inp : Nat → SAxi) :
    (∀ t, Nat.count (fun u => rXfer m n inp u = true) t + (topAt m n inp t).rd.rvalid.toNat =
        Nat.count (fun u => arXfer m n inp u = true) t ∧
      log (sampled (rXfer m n inp) (fun u => (topAt m n inp u).rd.rdata)) t ++
          (if (topAt m n inp t).rd.rvalid then [(topAt m n inp t).rd.rdata] else []) =
        log (sampled (arXfer m n inp) (fun u => readReg (inp u).araddr (topAt m n inp u))) t) ↔
    ∀ t, (topAt m n inp t).rd.rvalid = true → arXfer m n inp t = false := by
  have hcount := (read_slot m n inp).count_put_iff.2 (read_no_overrun m n inp)
  constructor
  · intro h t hv
    have heq : (fun u => captures (inp u) (topAt m n inp u)) = arXfer m n inp :=
      (count_eq_iff fun u hu => arXfer_of_captures hu).1 fun u => by rw [← hcount u, ← (h u).1]; rfl
    rw [← heq]
    simp [captures, hv]
  · intro h
    have heq : (fun u => captures (inp u) (topAt m n inp u)) = arXfer m n inp := by
      funext t
      have ht := h t
      unfold captures arXfer xfer at *
      cases hv : (topAt m n inp t).rd.rvalid with
      | false => simp [Bool.and_comm]
      | true => rw [ht hv]; simp
    intro t
    rw [← log_captures, ← heq, ← hcount t]
    exact ⟨rfl, rfl⟩

/-- Two reads of A by a master that does not take responses while it reads. -/
def stalledReads : Nat → SAxi :=
  SAxi.play (List.replicate 4 { SAxi.read 0x00 with rready := false })

theorem stalledReads_stable : StableMaster 16 4 stalledReads where
  aw t hv _ := by
    simp only [stalledReads, SAxi.play_replicate] at hv
    split at hv <;> cases hv
  w t hv _ := by
    simp only [stalledReads, SAxi.play_replicate] at hv
    split at hv <;> cases hv
  ar
    | 0, _, _ => ⟨rfl, rfl⟩
    | 1, _, hr => absurd hr (by decide)
    | 2, _, _ => ⟨rfl, rfl⟩
    | 3, _, hr => absurd hr (by decide)
    | t + 4, hv, _ => by simp [stalledReads, SAxi.play, SAxi.idle] at hv

/-- Two reads are accepted by edge 4, and one is answered. -/
theorem stalledReads_dropped : StableMaster 16 4 stalledReads ∧
    ¬ ∀ t, Nat.count (fun u => rXfer 16 4 stalledReads u = true) t +
        (topAt 16 4 stalledReads t).rd.rvalid.toNat =
      Nat.count (fun u => arXfer 16 4 stalledReads u = true) t :=
  ⟨stalledReads_stable, fun h => absurd (h 4) (by decide +kernel)⟩

end

end CimSigmoid.Adder
