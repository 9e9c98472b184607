import Tincr.Sptps.Replay

/-!
The replay window against a reference model: the next expected number, the set of the numbers accepted
so far, and how many numbers far ahead were dropped since the last accepted one. The bitmap keeps a bit
for each of the last `8 * win` numbers; the bit says that the number is not below the first window and
was not accepted.
-/

namespace Tincr.Sptps

structure ReplayModel where
  next : ℕ
  accepted : Finset ℕ
  drops : ℕ

namespace ReplayModel

def accept (m : ReplayModel) (s : ℕ) : ReplayModel := ⟨max m.next (s + 1), insert s m.accepted, 0⟩

/-- The verdict on a number. `start` is the next expected number of the first window. -/
def check (start win : ℕ) (m : ReplayModel) (s : ℕ) : Bool × ReplayModel :=
  if m.next + 8 * win ≤ s then
    if m.drops < win / 4 then (false, { m with drops := m.drops + 1 }) else (true, m.accept s)
  else if s < m.next then
    if m.next ≤ s + 8 * win ∧ s ∉ m.accepted ∧ start ≤ s then (true, m.accept s) else (false, m)
  else (true, m.accept s)

def verdicts (start win : ℕ) (m : ReplayModel) : List ℕ → List Bool
  | [] => []
  | s :: ss => (m.check start win s).1 :: verdicts start win (m.check start win s).2 ss

end ReplayModel

namespace ReplayWindow

/-- `check(seqno, true)` on each number in turn: whether it returned `Ok`. -/
def verdicts (w : ReplayWindow) : List UInt32 → List Bool
  | [] => []
  | s :: ss => (w.check s true).1.isOk :: verdicts (w.check s true).2 ss

/-- The window and the model have seen the same numbers. -/
structure Tracks (start win : ℕ) (w : ReplayWindow) (m : ReplayModel) : Prop where
  length : w.late.length = win
  next : w.inseqno.toNat = m.next
  drops : w.farfuture = m.drops
  start_le : start ≤ m.next
  below : ∀ a ∈ m.accepted, a < m.next
  bits : ∀ i < m.next, m.next ≤ i + 8 * win →
    (Bitmap.get w.late (slot win i) = true ↔ start ≤ i ∧ i ∉ m.accepted)

theorem Tracks.slot_lt {start win : ℕ} {w : ReplayWindow} {m : ReplayModel} (h : Tracks start win w m)
    (hw : 0 < win) (i : ℕ) : slot win i < 8 * w.late.length := by
  rw [h.length]
  exact ReplayWindow.slot_lt hw i

theorem eq_ok_of_isOk {r : Except SptpsError Unit} (h : r.isOk = true) : r = .ok () := by
  cases r with
  | error e => cases h
  | ok u => rfl

theorem toNat_succ {s : UInt32} (h : s.toNat ≠ 2 ^ 32 - 1) : (s + 1).toNat = s.toNat + 1 := by
  have hlt := s.toNat_lt
  rw [UInt32.toNat_add]
  simp only [UInt32.reduceToNat]
  omega

section Step

variable {start win : ℕ} {w : ReplayWindow} {m : ReplayModel} {s : UInt32}

/-- A number that is accepted ahead of the others: the window ends with it. -/
theorem Tracks.ahead (h : Tracks start win w m) (hw : 0 < win) (hmax : s.toNat ≠ 2 ^ 32 - 1)
    (hge : m.next ≤ s.toNat) {late : List UInt8} (hlen : late.length = win)
    (hbits : ∀ i < s.toNat, s.toNat + 1 ≤ i + 8 * win →
      (Bitmap.get late (slot win i) = true ↔ start ≤ i ∧ i ∉ m.accepted)) :
    Tracks start win ⟨s + 1, Bitmap.clear late (slot win s.toNat), 0⟩ (m.accept s.toNat) := by
  have hnext : max m.next (s.toNat + 1) = s.toNat + 1 := by omega
  have hslot : ∀ i, slot win i < 8 * late.length := fun i => by
    rw [hlen]
    exact ReplayWindow.slot_lt hw i
  refine ⟨by simpa using hlen, ?_, rfl, ?_, ?_, ?_⟩
  · rw [ReplayModel.accept, hnext]
    exact toNat_succ hmax
  · have := h.start_le
    simp only [ReplayModel.accept, hnext]
    omega
  · simp only [ReplayModel.accept, hnext, Finset.mem_insert]
    rintro a (rfl | ha)
    · omega
    · have := h.below a ha
      omega
  · simp only [ReplayModel.accept, hnext, Finset.mem_insert, not_or]
    intro i hi hin
    rw [Bitmap.get_clear _ (hslot i), Bool.and_eq_true]
    rcases Nat.lt_succ_iff_lt_or_eq.1 hi with hlt | rfl
    · have hne : slot win s.toNat ≠ slot win i := (slot_ne hlt (by omega)).symm
      simp [hne, hbits i hlt hin, Nat.ne_of_lt hlt]
    · simp

/-- A late number that is accepted: only its own bit goes. -/
theorem Tracks.past (h : Tracks start win w m) (hw : 0 < win) (hlt : s.toNat < m.next)
    (hin : m.next ≤ s.toNat + 8 * win) :
    Tracks start win ⟨w.inseqno, Bitmap.clear w.late (slot win s.toNat), 0⟩ (m.accept s.toNat) := by
  have hnext : max m.next (s.toNat + 1) = m.next := by omega
  refine ⟨by simpa using h.length, ?_, rfl, ?_, ?_, ?_⟩
  · rw [ReplayModel.accept, hnext]
    exact h.next
  · rw [ReplayModel.accept, hnext]
    exact h.start_le
  · simp only [ReplayModel.accept, hnext, Finset.mem_insert]
    rintro a (rfl | ha)
    · exact hlt
    · exact h.below a ha
  · simp only [ReplayModel.accept, hnext, Finset.mem_insert, not_or]
    intro i hi hin'
    rw [Bitmap.get_clear _ (h.slot_lt hw i), Bool.and_eq_true]
    rcases Nat.lt_trichotomy i s.toNat with hlt' | rfl | hgt
    · have hne : slot win s.toNat ≠ slot win i := (slot_ne hlt' (by omega)).symm
      simp [hne, h.bits i hi hin', Nat.ne_of_lt hlt']
    · simp
    · have hne : slot win s.toNat ≠ slot win i := slot_ne hgt (by omega)
      simp [hne, h.bits i hi hin', Nat.ne_of_gt hgt]

/-- The verdicts agree, and so do the states afterwards unless the greatest number was accepted. -/
theorem Tracks.check (h : Tracks start win w m) (hw : 0 < win)
    (hnw : w.inseqno.toNat + 8 * win < 2 ^ 32) (s : UInt32) :
    (w.check s true).1.isOk = (m.check start win s.toNat).1 ∧
      (((w.check s true).1.isOk = true → s.toNat ≠ 2 ^ 32 - 1) →
        Tracks start win (w.check s true).2 (m.check start win s.toNat).2) := by
  have hl := h.length
  have hn := h.next
  unfold ReplayModel.check
  rcases Nat.lt_trichotomy s.toNat w.inseqno.toNat with hlt | heq | hgt
  · -- from the past: the bit decides
    rw [if_neg (by omega), if_pos (by omega), check_past hl hw hnw hlt, hn]
    have hiff : (m.next ≤ s.toNat + 8 * win ∧ Bitmap.get w.late (slot win s.toNat) = true) ↔
        m.next ≤ s.toNat + 8 * win ∧ s.toNat ∉ m.accepted ∧ start ≤ s.toNat := by
      refine and_congr_right fun hin => ?_
      rw [h.bits s.toNat (by omega) hin, and_comm]
    simp only [hiff]
    split_ifs with hacc
    · exact ⟨rfl, fun _ => h.past hw (by omega) hacc.1⟩
    · exact ⟨rfl, fun _ => h⟩
  · -- the expected number
    obtain rfl := UInt32.toNat_inj.1 heq
    rw [if_neg (by omega), if_neg (by omega), check_next hl hw hnw]
    refine ⟨rfl, fun hmax => h.ahead hw (hmax rfl) (by omega) hl fun i hi hin => ?_⟩
    exact h.bits i (by omega) (by omega)
  · by_cases hfar : w.inseqno.toNat + 8 * win ≤ s.toNat
    · rw [if_pos (by omega), check_far hl hw hnw hfar, h.drops]
      split_ifs with hearly
      · exact ⟨rfl, fun _ => ⟨hl, hn, rfl, h.start_le, h.below, h.bits⟩⟩
      · -- resync: no accepted number is left in the window
        refine ⟨rfl, fun hmax => h.ahead hw (hmax rfl) (by omega) (by simp) fun i hi hin => ?_⟩
        have hfull : Bitmap.get (List.replicate win 0xFF) (slot win i) = true :=
          Bitmap.get_replicate_ones (ReplayWindow.slot_lt hw i)
        have hstart := h.start_le
        simp only [hfull, true_iff]
        exact ⟨by omega, fun hmem => absurd (h.below i hmem) (by omega)⟩
    · -- a gap: its numbers are marked, the older ones keep their bits
      rw [if_neg (by omega), if_neg (by omega), check_gap hl hw hnw hgt (by omega)]
      refine ⟨rfl, fun hmax => h.ahead hw (hmax rfl) (by omega) (by simpa using hl) fun i hi hin => ?_⟩
      rw [get_markLate (h.slot_lt hw i)]
      rcases Nat.lt_or_ge i m.next with hold | hnew
      · rw [h.bits i hold (by omega)]
        refine or_iff_right ?_
        rintro ⟨k, hlo, hhi, hslot⟩
        exact slot_ne (show i < k by omega) (by omega) hslot.symm
      · have hstart := h.start_le
        refine iff_of_true (.inl ⟨i, by omega, by omega, rfl⟩) ⟨by omega, fun hmem => ?_⟩
        exact absurd (h.below i hmem) (by omega)

end Step

theorem verdicts_of_tracks {start win : ℕ} {w : ReplayWindow} {m : ReplayModel} {ss : List UInt32}
    (h : Tracks start win w m) (hw : 0 < win) (hcalm : Calm win w ss) :
    w.verdicts ss = m.verdicts start win (ss.map UInt32.toNat) := by
  induction ss generalizing w m with
  | nil => rfl
  | cons s ss ih =>
    obtain ⟨hverdict, hstep⟩ := h.check hw hcalm.head s
    rw [verdicts, List.map_cons, ReplayModel.verdicts, hverdict]
    congr 1
    cases ss with
    | nil => rfl
    | cons t ts => exact ih (hstep fun hok => hcalm.ne_max (eq_ok_of_isOk hok)) hcalm.tail

/-- A window whose handshake ended before the number `start`. -/
def startAt (win : ℕ) (start : UInt32) : ReplayWindow := ⟨start, List.replicate win 0, 0⟩

theorem tracks_startAt {win : ℕ} (hw : 0 < win) (start : UInt32) :
    Tracks start.toNat win (startAt win start) ⟨start.toNat, ∅, 0⟩ := by
  refine ⟨by simp [startAt], rfl, rfl, le_rfl, by simp, fun i hi _ => ?_⟩
  have hzero := Bitmap.get_replicate_zeros (n := win) (slot_lt hw i)
  replace hi : i < start.toNat := hi
  simp only [startAt, hzero, Bool.false_eq_true, false_iff, not_and]
  omega

/-- The window gives the verdicts of the reference model. -/
theorem verdicts_eq_reference (win : ℕ) (hw : 1 ≤ win) (start : UInt32) (ss : List UInt32)
    (h : Calm win (startAt win start) ss) :
    (startAt win start).verdicts ss =
      ReplayModel.verdicts start.toNat win ⟨start.toNat, ∅, 0⟩ (ss.map UInt32.toNat) :=
  verdicts_of_tracks (tracks_startAt hw start) hw h

theorem verdicts_eq_reference_resync : Calm 4 (startAt 4 2) [1, 9, 5, 5, 100, 101, 70, 9] ∧
    (startAt 4 2).verdicts [1, 9, 5, 5, 100, 101, 70, 9] =
      [false, true, true, false, false, true, true, false] ∧
    ReplayModel.verdicts 2 4 ⟨2, ∅, 0⟩ [1, 9, 5, 5, 100, 101, 70, 9] =
      [false, true, true, false, false, true, true, false] := by
  have hc : Calm 4 (startAt 4 2) [1, 9, 5, 5, 100, 101, 70, 9] := by
    unfold Calm
    decide +kernel
  have hv : (startAt 4 2).verdicts [1, 9, 5, 5, 100, 101, 70, 9] =
      [false, true, true, false, false, true, true, false] := by decide +kernel
  exact ⟨hc, hv, (verdicts_eq_reference 4 (by decide) 2 _ hc).symm.trans hv⟩

/-- Once the greatest number was accepted the next expected number is `0` again, and numbers accepted
before it are taken for late ones. -/
theorem verdicts_ne_reference_wrapped : ¬ ∀ win ≥ 1, ∀ ss : List UInt32,
    (∀ n < ss.length, ((startAt win 0).runFrom (ss.take n)).inseqno.toNat + 8 * win < 2 ^ 32) →
      (startAt win 0).verdicts ss = ReplayModel.verdicts 0 win ⟨0, ∅, 0⟩ (ss.map UInt32.toNat) := by
  intro h
  have hrun := h 1 (by decide) [3, 0xFFFFFFFF, 5, 3] (by decide +kernel)
  revert hrun
  decide +kernel

end ReplayWindow
end Tincr.Sptps
