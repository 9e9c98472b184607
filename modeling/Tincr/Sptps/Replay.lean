import Tincr.Lib.Bitmap
import Tincr.Sptps.Types

/-! The replay window of datagram mode. Bit `i % (8 * win)` of `late` is 1 when
`i` was skipped and has not arrived; acceptance is read off that bitmap, off the
next expected number and off a counter of packets far ahead. -/

namespace Tincr.Sptps

structure ReplayWindow where
  inseqno : UInt32
  late : List UInt8
  farfuture : ℕ
  deriving DecidableEq, Repr

namespace ReplayWindow

def new (win : ℕ) : ReplayWindow := ⟨0, List.replicate win 0, 0⟩

/-- The bit `1 << (i % 8)` of byte `i / 8 % win`. -/
def slot (win i : ℕ) : ℕ := 8 * (i / 8 % win) + i % 8

/-- `for i in lo..hi`: mark every number of the gap as late. -/
def markLate (win : ℕ) (late : List UInt8) (lo hi : ℕ) : List UInt8 :=
  (List.range' lo (hi - lo)).foldl (fun late i => Bitmap.set late (slot win i)) late

def commit (w : ReplayWindow) (win seqno : UInt32) (update : Bool) : ReplayWindow :=
  let w1 :=
    if 0 < win ∧ update then
      { w with late := Bitmap.clear w.late (slot win.toNat seqno.toNat), farfuture := 0 }
    else w
  if update ∧ w.inseqno ≤ seqno then { w1 with inseqno := seqno + 1 } else w1

/-- `late.len() as u32` and `win * 8` are taken modulo `2 ^ 32`, as in a release build. -/
def check (w : ReplayWindow) (seqno : UInt32) (update : Bool) :
    Except SptpsError Unit × ReplayWindow :=
  let win : UInt32 := UInt32.ofNat w.late.length
  if 0 < win ∧ seqno ≠ w.inseqno then
    if w.inseqno + win * 8 ≤ seqno then
      -- far future: the first `win / 4` are dropped, then the window resyncs
      let early := w.farfuture < (win >>> 2).toNat
      let w1 := if update then { w with farfuture := w.farfuture + 1 } else w
      if early then (.error .badSeqno, w1)
      else
        let w2 := if update then { w1 with late := List.replicate w1.late.length 0xFF } else w1
        (.ok (), w2.commit win seqno update)
    else if seqno < w.inseqno then
      let tooOld := win * 8 ≤ w.inseqno ∧ seqno < w.inseqno - win * 8
      let already := Bitmap.get w.late (slot win.toNat seqno.toNat) = false
      if tooOld ∨ already then (.error .badSeqno, w)
      else (.ok (), w.commit win seqno update)
    else
      let w1 :=
        if update then
          { w with late := markLate win.toNat w.late w.inseqno.toNat seqno.toNat }
        else w
      (.ok (), w1.commit win seqno update)
  else (.ok (), w.commit win seqno update)

/-- `self.late[(i / 8 % win) as usize]` rewritten by `f`; `none` is a panic. -/
def modifyByte (late : List UInt8) (win i : ℕ) (f : UInt8 → UInt8) : Option (List UInt8) :=
  if 0 < win ∧ i / 8 % win < late.length then some (late.modify (i / 8 % win) f) else none

/-- `self.late[(i / 8 % win) as usize] & (1 << (i % 8))`. -/
def readBit (late : List UInt8) (win i : ℕ) : Option Bool :=
  if 0 < win then late[i / 8 % win]?.map (Bitmap.bit · (i % 8)) else none

/-- `a - b`, which must not underflow. -/
def subtract (a b : UInt32) : Option UInt32 := if b ≤ a then some (a - b) else none

def commitChecked (w : ReplayWindow) (win seqno : UInt32) (update : Bool) : Option ReplayWindow := do
  let late ← if 0 < win ∧ update then
      modifyByte w.late win.toNat seqno.toNat (· &&& ~~~ Bitmap.mask (seqno.toNat % 8))
    else some w.late
  let w1 := if 0 < win ∧ update then { w with late := late, farfuture := 0 } else w
  some (if update ∧ w.inseqno ≤ seqno then { w1 with inseqno := seqno + 1 } else w1)

/-- `self.inseqno >= win * 8 && seqno < self.inseqno - win * 8`: `&&` is lazy, and the subtraction is
made only when the comparison before it holds. -/
def tooOldChecked (w : ReplayWindow) (win seqno : UInt32) : Option Bool :=
  if win * 8 ≤ w.inseqno then (subtract w.inseqno (win * 8)).map (decide <| seqno < ·) else some false

/-- `check` with every operation that could panic left partial: the indices into `late`, the division
by `win` and the subtraction from `inseqno`. -/
def checked (w : ReplayWindow) (seqno : UInt32) (update : Bool) :
    Option (Except SptpsError Unit × ReplayWindow) := do
  let win : UInt32 := UInt32.ofNat w.late.length
  let accept (w : ReplayWindow) := (w.commitChecked win seqno update).map (Except.ok (), ·)
  if 0 < win ∧ seqno ≠ w.inseqno then
    if w.inseqno + win * 8 ≤ seqno then
      let early := w.farfuture < (win >>> 2).toNat
      let w1 := if update then { w with farfuture := w.farfuture + 1 } else w
      if early then some (.error .badSeqno, w1)
      else accept (if update then { w1 with late := List.replicate w1.late.length 0xFF } else w1)
    else if seqno < w.inseqno then
      let tooOld ← w.tooOldChecked win seqno
      let late ← readBit w.late win.toNat seqno.toNat
      if tooOld ∨ late = false then some (.error .badSeqno, w) else accept w
    else if update then
      let late ← (List.range' w.inseqno.toNat (seqno.toNat - w.inseqno.toNat)).foldlM
        (fun late i => modifyByte late win.toNat i (· ||| Bitmap.mask (i % 8))) w.late
      accept { w with late := late }
    else accept w
  else accept w

/-- `check(seqno, true)` on each number in turn: the window reached. -/
def runFrom (w : ReplayWindow) : List UInt32 → ReplayWindow
  | [] => w
  | s :: ss => runFrom (w.check s true).2 ss

/-- The numbers of the sequence for which `check(seqno, true)` returned `Ok`, in order. -/
def accepted (w : ReplayWindow) : List UInt32 → List UInt32
  | [] => []
  | s :: ss =>
    match w.check s true with
    | (.ok _, w') => s :: accepted w' ss
    | (.error _, w') => accepted w' ss

theorem slot_eq (win i : ℕ) : slot win i = i % (8 * win) := by
  rw [slot, Nat.mod_mul, Nat.add_comm]

theorem slot_lt {win : ℕ} (h : 0 < win) (i : ℕ) : slot win i < 8 * win := by
  rw [slot_eq]; exact Nat.mod_lt _ (by omega)

/-- Numbers less than a window apart have different slots. -/
theorem slot_ne {win i j : ℕ} (hij : i < j) (hd : j < i + 8 * win) : slot win i ≠ slot win j := by
  rw [slot_eq, slot_eq]
  intro h
  have h1 : 8 * win ∣ j - i := (Nat.modEq_iff_dvd' hij.le).1 h
  have h2 := Nat.le_of_dvd (by omega) h1
  omega

@[simp] theorem length_markLate (win : ℕ) (late : List UInt8) (lo hi : ℕ) :
    (markLate win late lo hi).length = late.length := by
  unfold markLate
  generalize List.range' lo (hi - lo) = is
  induction is generalizing late with
  | nil => rfl
  | cons i is ih => simp [ih]

/-- After marking a gap, a bit is set if it was or if it is the slot of a number of the gap. -/
theorem get_markLate {win : ℕ} {late : List UInt8} {lo hi j : ℕ} (hj : j < 8 * late.length) :
    Bitmap.get (markLate win late lo hi) j = true ↔
      (∃ i, lo ≤ i ∧ i < hi ∧ slot win i = j) ∨ Bitmap.get late j = true := by
  have hmem : (∃ i, lo ≤ i ∧ i < hi ∧ slot win i = j) ↔ ∃ i ∈ List.range' lo (hi - lo), slot win i = j := by
    simp only [List.mem_range'_1, and_assoc]
    exact exists_congr fun i => and_congr_right fun hlo => and_congr_left fun _ => by omega
  rw [hmem, markLate]
  generalize List.range' lo (hi - lo) = is
  induction is generalizing late with
  | nil => simp
  | cons i is ih =>
    have hset := Bitmap.get_set late (i := slot win i) hj
    rw [List.foldl_cons]
    refine (ih (by simpa using hj)).trans ?_
    simp only [hset, Bool.or_eq_true, decide_eq_true_eq, List.exists_mem_cons_iff]
    rw [or_left_comm, or_assoc]

/-- Marking a gap leaves the bit of a number whose slot no number of the gap has. -/
theorem get_markLate_of_ne {win : ℕ} {late : List UInt8} {lo hi j : ℕ} (hj : j < 8 * late.length)
    (hne : ∀ i, lo ≤ i → i < hi → slot win i ≠ j) :
    Bitmap.get (markLate win late lo hi) j = Bitmap.get late j := by
  rw [Bool.eq_iff_iff, get_markLate hj]
  refine or_iff_right ?_
  rintro ⟨i, hlo, hhi, hslot⟩
  exact hne i hlo hhi hslot

theorem ofNat_toNat_of_lt {n : ℕ} (h : n < 2 ^ 32) : (UInt32.ofNat n).toNat = n := by
  simpa using h

/-- The window length as the code casts it never exceeds the real one. -/
theorem toNat_ofNat_le (n : ℕ) : (UInt32.ofNat n).toNat ≤ n := by
  rw [UInt32.toNat_ofNat']
  exact Nat.mod_le n _

theorem index_lt {late : List UInt8} {win : ℕ} (hw : 0 < win) (hle : win ≤ late.length) (i : ℕ) :
    i / 8 % win < late.length :=
  (Nat.mod_lt _ hw).trans_le hle

theorem slot_div (win i : ℕ) : slot win i / 8 = i / 8 % win := by
  unfold slot; omega

theorem slot_mod (win i : ℕ) : slot win i % 8 = i % 8 := by
  unfold slot; omega

theorem readBit_eq {late : List UInt8} {win : ℕ} (hw : 0 < win) (hle : win ≤ late.length) (i : ℕ) :
    readBit late win i = some (Bitmap.get late (slot win i)) := by
  have hi := index_lt hw hle i
  simp [readBit, hw, Bitmap.get, slot_div, slot_mod, hi]

theorem modifyByte_eq {late : List UInt8} {win : ℕ} (hw : 0 < win) (hle : win ≤ late.length) (i : ℕ)
    (f : UInt8 → UInt8) : modifyByte late win i f = some (late.modify (i / 8 % win) f) := by
  rw [modifyByte, if_pos ⟨hw, index_lt hw hle i⟩]

theorem markLate_eq {late : List UInt8} {win : ℕ} (hw : 0 < win) (hle : win ≤ late.length) (lo hi : ℕ) :
    (List.range' lo (hi - lo)).foldlM
      (fun late i => modifyByte late win i (· ||| Bitmap.mask (i % 8))) late =
        some (markLate win late lo hi) := by
  unfold markLate
  generalize List.range' lo (hi - lo) = is
  induction is generalizing late with
  | nil => rfl
  | cons i is ih =>
    rw [List.foldlM_cons, modifyByte_eq hw hle, List.foldl_cons, Bitmap.set, slot_div, slot_mod]
    exact ih (by simpa using hle)

theorem commitChecked_eq (w : ReplayWindow) (win seqno : UInt32) (update : Bool)
    (hle : win.toNat ≤ w.late.length) :
    w.commitChecked win seqno update = some (w.commit win seqno update) := by
  unfold commitChecked commit
  by_cases h : 0 < win ∧ update = true
  · have hw : 0 < win.toNat := UInt32.lt_iff_toNat_lt.mp h.1
    simp only [if_pos h, modifyByte_eq hw hle, Bitmap.clear, slot_div, slot_mod]
    rfl
  · simp only [if_neg h]
    rfl

theorem tooOldChecked_eq (w : ReplayWindow) (win seqno : UInt32) : w.tooOldChecked win seqno =
    some (decide (win * 8 ≤ w.inseqno ∧ seqno < w.inseqno - win * 8)) := by
  by_cases h8 : win * 8 ≤ w.inseqno <;> simp [tooOldChecked, subtract, h8]

/-- Every index and subtraction of `check` is in range, whatever the window's state. -/
theorem checked_eq (w : ReplayWindow) (seqno : UInt32) (update : Bool) :
    w.checked seqno update = some (w.check seqno update) := by
  unfold checked check
  have hle := toNat_ofNat_le w.late.length
  generalize UInt32.ofNat w.late.length = win at hle ⊢
  by_cases hout : 0 < win ∧ seqno ≠ w.inseqno
  · have hw : 0 < win.toNat := UInt32.lt_iff_toNat_lt.mp hout.1
    simp only [if_pos hout]
    by_cases hfar : w.inseqno + win * 8 ≤ seqno
    · simp only [if_pos hfar]
      split
      · rfl
      · rw [commitChecked_eq _ _ _ _ (by split <;> simpa using hle)]
        rfl
    · simp only [if_neg hfar]
      by_cases hlt : seqno < w.inseqno
      · simp only [if_pos hlt, tooOldChecked_eq, readBit_eq hw hle, commitChecked_eq _ _ _ _ hle]
        simp only [Option.bind_eq_bind, Option.bind_some, decide_eq_true_eq]
        split <;> rfl
      · simp only [if_neg hlt]
        split
        · rw [markLate_eq hw hle]
          simp only [Option.bind_eq_bind, Option.bind_some]
          rw [commitChecked_eq _ _ _ _ (by simpa using hle)]
          rfl
        · rw [commitChecked_eq _ _ _ _ hle]
          rfl
  · simp only [if_neg hout, commitChecked_eq _ _ _ _ hle]
    rfl

section Plain

/-! The window in plain arithmetic, when `inseqno + 8 * win` stays below `2 ^ 32`. -/

variable {w : ReplayWindow} {win : ℕ} {s : UInt32}

theorem toNat_win (hl : w.late.length = win) (hnw : w.inseqno.toNat + 8 * win < 2 ^ 32) :
    (UInt32.ofNat w.late.length).toNat = win := by
  rw [hl]
  exact ofNat_toNat_of_lt (by omega)

theorem toNat_span (hl : w.late.length = win) (hnw : w.inseqno.toNat + 8 * win < 2 ^ 32) :
    (UInt32.ofNat w.late.length * 8).toNat = 8 * win := by
  rw [UInt32.toNat_mul, toNat_win hl hnw]
  simp only [UInt32.reduceToNat]
  omega

theorem toNat_threshold (hl : w.late.length = win) (hnw : w.inseqno.toNat + 8 * win < 2 ^ 32) :
    (w.inseqno + UInt32.ofNat w.late.length * 8).toNat = w.inseqno.toNat + 8 * win := by
  rw [UInt32.toNat_add, toNat_span hl hnw]
  omega

theorem win_pos (hl : w.late.length = win) (hw : 0 < win) (hnw : w.inseqno.toNat + 8 * win < 2 ^ 32) :
    0 < UInt32.ofNat w.late.length := by
  rw [UInt32.lt_iff_toNat_lt, toNat_win hl hnw]
  simpa using hw

theorem check_next (hl : w.late.length = win) (hw : 0 < win) (hnw : w.inseqno.toNat + 8 * win < 2 ^ 32) :
    w.check w.inseqno true =
      (.ok (), ⟨w.inseqno + 1, Bitmap.clear w.late (slot win w.inseqno.toNat), 0⟩) := by
  simp [check, commit, win_pos hl hw hnw, toNat_win hl hnw]

/-- A number a whole window ahead: dropped at first, then the window starts over from it. -/
theorem check_far (hl : w.late.length = win) (hw : 0 < win) (hnw : w.inseqno.toNat + 8 * win < 2 ^ 32)
    (hfar : w.inseqno.toNat + 8 * win ≤ s.toNat) :
    w.check s true =
      if w.farfuture < win / 4 then (.error .badSeqno, ⟨w.inseqno, w.late, w.farfuture + 1⟩)
      else (.ok (), ⟨s + 1, Bitmap.clear (List.replicate win 0xFF) (slot win s.toNat), 0⟩) := by
  have hne : s ≠ w.inseqno := by
    rintro rfl
    omega
  have hge : w.inseqno ≤ s := by
    rw [UInt32.le_iff_toNat_le]
    omega
  have hquarter : (UInt32.ofNat w.late.length >>> 2).toNat = win / 4 := by
    rw [UInt32.toNat_shiftRight, toNat_win hl hnw]
    simp [Nat.shiftRight_eq_div_pow]
  have hthr : w.inseqno + UInt32.ofNat w.late.length * 8 ≤ s := by
    rw [UInt32.le_iff_toNat_le, toNat_threshold hl hnw]
    exact hfar
  have hpos := win_pos hl hw hnw
  have hwin := toNat_win hl hnw
  rw [check, if_pos ⟨hpos, hne⟩, if_pos hthr, hquarter]
  generalize UInt32.ofNat w.late.length = wn at hpos hwin ⊢
  by_cases hearly : w.farfuture < win / 4
  · simp [hearly]
  · simp [hearly, commit, hge, hwin, hpos, hl]

/-- A number from the past: accepted if it is still in the window and marked late. -/
theorem check_past (hl : w.late.length = win) (hw : 0 < win) (hnw : w.inseqno.toNat + 8 * win < 2 ^ 32)
    (hlt : s.toNat < w.inseqno.toNat) :
    w.check s true =
      if w.inseqno.toNat ≤ s.toNat + 8 * win ∧ Bitmap.get w.late (slot win s.toNat) = true then
        (.ok (), ⟨w.inseqno, Bitmap.clear w.late (slot win s.toNat), 0⟩)
      else (.error .badSeqno, w) := by
  have hne : s ≠ w.inseqno := by
    rintro rfl
    omega
  have hnge : ¬ w.inseqno ≤ s := by
    rw [UInt32.le_iff_toNat_le]
    omega
  have hnthr : ¬ w.inseqno + UInt32.ofNat w.late.length * 8 ≤ s := by
    rw [UInt32.le_iff_toNat_le, toNat_threshold hl hnw]
    omega
  have hold : (UInt32.ofNat w.late.length * 8 ≤ w.inseqno ∧
      s < w.inseqno - UInt32.ofNat w.late.length * 8) ↔ ¬ w.inseqno.toNat ≤ s.toNat + 8 * win := by
    rw [UInt32.le_iff_toNat_le, UInt32.lt_iff_toNat_lt, toNat_span hl hnw]
    by_cases hspan : 8 * win ≤ w.inseqno.toNat
    · rw [UInt32.toNat_sub_of_le _ _ (by rwa [UInt32.le_iff_toNat_le, toNat_span hl hnw]),
        toNat_span hl hnw]
      omega
    · omega
  rw [check, if_pos ⟨win_pos hl hw hnw, hne⟩, if_neg hnthr, if_pos (UInt32.lt_iff_toNat_lt.2 hlt)]
  simp only [hold, toNat_win hl hnw]
  by_cases hin : w.inseqno.toNat ≤ s.toNat + 8 * win
  · cases hbit : Bitmap.get w.late (slot win s.toNat) with
    | false => simp
    | true => simp [hin, commit, hnge, toNat_win hl hnw, win_pos hl hw hnw]
  · simp [hin]

/-- A number less than a window ahead: the gap before it is marked late. -/
theorem check_gap (hl : w.late.length = win) (hw : 0 < win) (hnw : w.inseqno.toNat + 8 * win < 2 ^ 32)
    (hlt : w.inseqno.toNat < s.toNat) (hnear : s.toNat < w.inseqno.toNat + 8 * win) :
    w.check s true =
      (.ok (), ⟨s + 1, Bitmap.clear (markLate win w.late w.inseqno.toNat s.toNat) (slot win s.toNat), 0⟩) := by
  have hne : s ≠ w.inseqno := by
    rintro rfl
    omega
  have hge : w.inseqno ≤ s := by
    rw [UInt32.le_iff_toNat_le]
    omega
  have hnlt : ¬ s < w.inseqno := by
    rw [UInt32.lt_iff_toNat_lt]
    omega
  have hnthr : ¬ w.inseqno + UInt32.ofNat w.late.length * 8 ≤ s := by
    rw [UInt32.le_iff_toNat_le, toNat_threshold hl hnw]
    omega
  rw [check, if_pos ⟨win_pos hl hw hnw, hne⟩, if_neg hnthr, if_neg hnlt]
  simp [commit, hge, toNat_win hl hnw, win_pos hl hw hnw]

theorem check_cases (hl : w.late.length = win) (hw : 0 < win)
    (hnw : w.inseqno.toNat + 8 * win < 2 ^ 32) (s : UInt32) :
    (s = w.inseqno ∧ w.check s true =
      (.ok (), ⟨s + 1, Bitmap.clear w.late (slot win s.toNat), 0⟩)) ∨
    (w.check s true = (.error .badSeqno, ⟨w.inseqno, w.late, w.farfuture + 1⟩)) ∨
    (w.inseqno.toNat + 8 * win ≤ s.toNat ∧ w.check s true =
      (.ok (), ⟨s + 1, Bitmap.clear (List.replicate win 0xFF) (slot win s.toNat), 0⟩)) ∨
    (w.check s true = (.error .badSeqno, w)) ∨
    (s.toNat < w.inseqno.toNat ∧ w.inseqno.toNat ≤ s.toNat + 8 * win ∧
      Bitmap.get w.late (slot win s.toNat) = true ∧ w.check s true =
      (.ok (), ⟨w.inseqno, Bitmap.clear w.late (slot win s.toNat), 0⟩)) ∨
    (w.inseqno.toNat < s.toNat ∧ s.toNat < w.inseqno.toNat + 8 * win ∧ w.check s true =
      (.ok (), ⟨s + 1, Bitmap.clear (markLate win w.late w.inseqno.toNat s.toNat)
        (slot win s.toNat), 0⟩)) := by
  rcases Nat.lt_trichotomy s.toNat w.inseqno.toNat with hlt | heq | hgt
  · rw [check_past hl hw hnw hlt]
    split_ifs with hin
    · exact .inr (.inr (.inr (.inr (.inl ⟨hlt, hin.1, hin.2, rfl⟩))))
    · exact .inr (.inr (.inr (.inl rfl)))
  · obtain rfl := UInt32.toNat_inj.1 heq
    exact .inl ⟨rfl, check_next hl hw hnw⟩
  · by_cases hfar : w.inseqno.toNat + 8 * win ≤ s.toNat
    · rw [check_far hl hw hnw hfar]
      split_ifs
      · exact .inr (.inl rfl)
      · exact .inr (.inr (.inl ⟨hfar, rfl⟩))
    · refine .inr (.inr (.inr (.inr (.inr ⟨hgt, by omega, ?_⟩))))
      exact check_gap hl hw hnw hgt (by omega)

end Plain

structure Inv (win : ℕ) (acc : List UInt32) (w : ReplayWindow) : Prop where
  len : w.late.length = win
  pos : 0 < win
  below : ∀ a ∈ acc, a.toNat < w.inseqno.toNat
  seen : ∀ a ∈ acc, w.inseqno.toNat ≤ a.toNat + 8 * win →
    Bitmap.get w.late (slot win a.toNat) = false

/-- A number the window accepts is new, and the window remembers it. -/
theorem inv_check {win : ℕ} {acc : List UInt32} {w w' : ReplayWindow} {s : UInt32}
    {r : Except SptpsError Unit} (hi : Inv win acc w) (hnw : w.inseqno.toNat + 8 * win < 2 ^ 32)
    (hc : w.check s true = (r, w')) :
    (r = .ok () → s ∉ acc ∧ (s.toNat ≠ 2 ^ 32 - 1 → Inv win (s :: acc) w')) ∧
    (r ≠ .ok () → Inv win acc w') := by
  obtain ⟨hl, hw, hb, hs⟩ := hi
  have hslot : ∀ i, slot win i < 8 * w.late.length := fun i => hl ▸ slot_lt hw i
  have hsucc : s.toNat ≠ 2 ^ 32 - 1 → (s + 1).toNat = s.toNat + 1 := by
    intro h
    have := s.toNat_lt
    rw [UInt32.toNat_add]
    simp only [UInt32.reduceToNat]
    omega
  rcases check_cases hl hw hnw s with ⟨he, h⟩ | h | ⟨hfar, h⟩ | h | ⟨hlt, hin, hbit, h⟩ |
    ⟨hlt, hnear, h⟩ <;> obtain ⟨rfl, rfl⟩ := Prod.mk.inj (h.symm.trans hc)
  · -- the expected number
    refine ⟨fun _ => ⟨fun hm => absurd (hb s hm) (by rw [he]; omega), fun hmax => ?_⟩, by simp⟩
    have h1 := hsucc hmax
    refine ⟨by simpa using hl, hw, ?_, ?_⟩
    · simp only [List.mem_cons, h1]
      rintro a (rfl | ha)
      · omega
      · have := hb a ha; rw [he]; omega
    · simp only [List.mem_cons, h1]
      rintro a (rfl | ha) hge
      · rw [Bitmap.get_clear _ (hslot _)]; simp
      · rw [Bitmap.get_clear _ (hslot _), hs a ha (by rw [he] at hge; omega), Bool.and_false]
  · exact ⟨by simp, fun _ => ⟨hl, hw, hb, hs⟩⟩
  · -- resync: every accepted number falls out of the window
    refine ⟨fun _ => ⟨fun hm => absurd (hb s hm) (by omega), fun hmax => ?_⟩, by simp⟩
    have h1 := hsucc hmax
    refine ⟨by simp, hw, ?_, ?_⟩
    · simp only [List.mem_cons, h1]
      rintro a (rfl | ha)
      · omega
      · have := hb a ha; omega
    · simp only [List.mem_cons, h1]
      rintro a (rfl | ha) hge
      · rw [Bitmap.get_clear _ (by simpa using slot_lt hw _)]; simp
      · have := hb a ha; omega
  · exact ⟨by simp, fun _ => ⟨hl, hw, hb, hs⟩⟩
  · -- a late number: its bit was still set, so it was not accepted before
    refine ⟨fun _ => ⟨fun hm => ?_, fun _ => ⟨by simpa using hl, hw, ?_, ?_⟩⟩, by simp⟩
    · rw [hs s hm hin] at hbit; simp at hbit
    · simp only [List.mem_cons]
      rintro a (rfl | ha)
      · exact hlt
      · exact hb a ha
    · simp only [List.mem_cons]
      rintro a (rfl | ha) hge
      · rw [Bitmap.get_clear _ (hslot _)]; simp
      · rw [Bitmap.get_clear _ (hslot _), hs a ha hge, Bool.and_false]
  · -- a gap: only slots of numbers that no accepted one shares are marked
    refine ⟨fun _ => ⟨fun hm => absurd (hb s hm) (by omega), fun hmax => ?_⟩, by simp⟩
    have h1 := hsucc hmax
    have hml : ∀ i, slot win i < 8 * (markLate win w.late w.inseqno.toNat s.toNat).length := by
      intro i; simpa using hslot i
    refine ⟨by simpa using hl, hw, ?_, ?_⟩
    · simp only [List.mem_cons, h1]
      rintro a (rfl | ha)
      · omega
      · have := hb a ha; omega
    · simp only [List.mem_cons, h1]
      rintro a (rfl | ha) hge
      · rw [Bitmap.get_clear _ (hml _)]; simp
      · have hab := hb a ha
        rw [Bitmap.get_clear _ (hml _), get_markLate_of_ne (hslot _), hs a ha (by omega),
          Bool.and_false]
        intro i hi hi'
        exact (slot_ne (by omega) (by omega)).symm

/-- Before each call the threshold `inseqno + 8 * win` fits 32 bits and `u32::MAX` has not been
accepted. -/
def Calm (win : ℕ) (w : ReplayWindow) (ss : List UInt32) : Prop :=
  ∀ n < ss.length, (w.runFrom (ss.take n)).inseqno.toNat + 8 * win < 2 ^ 32 ∧
    0xFFFFFFFF ∉ w.accepted (ss.take n)

/-- A refused number leaves the window as it was, but for the count of the drops. -/
theorem check_error {w w' : ReplayWindow} {s : UInt32} {e : SptpsError} (h : w.check s true = (.error e, w')) :
    e = .badSeqno ∧ w'.inseqno = w.inseqno ∧ w'.late = w.late := by
  unfold check at h
  dsimp only at h
  split_ifs at h <;> obtain ⟨he, rfl⟩ := Prod.mk.inj h <;> cases he <;> exact ⟨rfl, rfl, rfl⟩

section Calm

variable {win : ℕ} {w : ReplayWindow} {s : UInt32} {ss : List UInt32}

theorem accepted_cons (w : ReplayWindow) (s : UInt32) (ss : List UInt32) :
    w.accepted (s :: ss) =
      if (w.check s true).1 = .ok () then s :: accepted (w.check s true).2 ss
      else accepted (w.check s true).2 ss := by
  rcases hc : w.check s true with ⟨e | ⟨⟩, w'⟩ <;> simp [accepted, hc]

theorem Calm.head (h : Calm win w (s :: ss)) : w.inseqno.toNat + 8 * win < 2 ^ 32 := (h 0 (by simp)).1

theorem Calm.tail (h : Calm win w (s :: ss)) : Calm win (w.check s true).2 ss := by
  intro n hn
  obtain ⟨hnw, hmax⟩ := h (n + 1) (by simpa using hn)
  refine ⟨hnw, fun hmem => hmax ?_⟩
  rw [List.take_succ_cons, accepted_cons]
  split_ifs
  · exact List.mem_cons_of_mem _ hmem
  · exact hmem

/-- The greatest number is not accepted before another call. -/
theorem Calm.ne_max {t : UInt32} (h : Calm win w (s :: t :: ss)) (hok : (w.check s true).1 = .ok ()) :
    s.toNat ≠ 2 ^ 32 - 1 := by
  intro heq
  obtain rfl : s = 0xFFFFFFFF := UInt32.toNat_inj.1 heq
  refine (h 1 (by simp)).2 ?_
  rw [List.take_succ_cons, accepted_cons, if_pos hok]
  exact List.mem_cons_self

theorem accepted_of_inv {acc : List UInt32} (hi : Inv win acc w) (hcalm : Calm win w ss) :
    (w.accepted ss).Nodup ∧ ∀ s ∈ w.accepted ss, s ∉ acc := by
  induction ss generalizing acc w with
  | nil => simp [accepted]
  | cons s ss ih =>
    obtain ⟨hok, herr⟩ := inv_check hi hcalm.head (Prod.mk.eta (p := w.check s true)).symm
    rw [accepted_cons]
    split_ifs with hacc
    · obtain ⟨hnew, hinv⟩ := hok hacc
      cases ss with
      | nil => simpa [accepted] using hnew
      | cons t ts =>
        obtain ⟨hnd, hdis⟩ := ih (hinv (hcalm.ne_max hacc)) hcalm.tail
        refine ⟨List.nodup_cons.2 ⟨fun hm => hdis s hm (by simp), hnd⟩, ?_⟩
        rintro a (_ | ⟨_, ha⟩)
        · exact hnew
        · exact fun hm => hdis a ha (by simp [hm])
    · exact ih (herr hacc) hcalm.tail

end Calm

theorem inv_new {win : ℕ} (hw : 0 < win) : Inv win [] (new win) :=
  ⟨by simp [new], hw, by simp, by simp⟩

/-- No number is accepted twice while the threshold of the far-future test fits 32 bits. -/
theorem accepted_nodup (win : ℕ) (hw : 1 ≤ win) (ss : List UInt32) (h : Calm win (new win) ss) :
    ((new win).accepted ss).Nodup :=
  (accepted_of_inv (inv_new hw) h).1

theorem accepted_nodup_window : Calm 1 (new 1) [0, 2, 0, 1, 2] ∧
    (new 1).accepted [0, 2, 0, 1, 2] = [0, 2, 1] ∧ ((new 1).accepted [0, 2, 0, 1, 2]).Nodup := by
  have hc : Calm 1 (new 1) [0, 2, 0, 1, 2] := by unfold Calm; decide
  exact ⟨hc, by decide, accepted_nodup 1 (by decide) _ hc⟩

/-- Close to the top the threshold wraps to a small number, so that a number already accepted
passes for one far ahead. -/
theorem accepted_twice_near_top : ¬ ∀ win ≥ 1, ∀ ss : List UInt32,
    (∀ n < ss.length, 0xFFFFFFFF ∉ (new win).accepted (ss.take n)) →
      ((new win).accepted ss).Nodup := by
  intro h
  have := h 1 (by decide) [0xFFFFFFF0, 0xFFFFFFFA, 0xFFFFFFFA] (by decide)
  revert this
  decide

end ReplayWindow
end Tincr.Sptps
