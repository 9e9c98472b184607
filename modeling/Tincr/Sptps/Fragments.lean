import Tincr.Sptps.NoPanic
import Tincr.Sptps.Stream

/-!
Cuts of a byte stream. A stream session handed a string in pieces, each piece again and again until it is
used up, does what it does when the whole string is handed to it: both are the session fed one byte at a
time.
-/

set_option linter.dupNamespace false

namespace Tincr.Sptps

open EStateM M

variable {C : Crypto}

/-- What the caller has after feeding: the session, the outputs in order, and the error that stopped it. -/
structure Fed (C : Crypto) where
  cx : Cx C
  outs : List Output
  error : Option Fault

def Fed.after (outs : List Output) (r : Fed C) : Fed C := { r with outs := outs ++ r.outs }

/-- `receive` on what is left of `data` until nothing is; `none` is a loop that makes no progress. -/
def feedFuel : ℕ → Cx C → Bytes → Option (Fed C)
  | _, cx, [] => some ⟨cx.clearOut, [], none⟩
  | 0, _, _ :: _ => none
  | n + 1, cx, x :: xs =>
    match (receive (x :: xs)).run cx with
    | .error f cx' => some ⟨cx'.clearOut, [], some f⟩
    | .ok k cx' => (feedFuel n cx' ((x :: xs).drop k)).map (Fed.after cx'.out)

def feed (cx : Cx C) (data : Bytes) : Option (Fed C) := feedFuel data.length cx data

/-- The next piece goes to the session that is left, unless an error has come. -/
def Fed.andThen (r : Fed C) (f : Cx C → Option (Fed C)) : Option (Fed C) :=
  match r.error with
  | some _ => some r
  | none => (f r.cx).map (Fed.after r.outs)

def feedAll (cx : Cx C) : List Bytes → Option (Fed C)
  | [] => some ⟨cx.clearOut, [], none⟩
  | chunk :: chunks => (feed cx chunk).bind fun r => r.andThen fun cx' => feedAll cx' chunks

def feedBytes (cx : Cx C) : Bytes → Fed C
  | [] => ⟨cx.clearOut, [], none⟩
  | x :: xs =>
    match (receive [x]).run cx with
    | .error f cx' => ⟨cx'.clearOut, [], some f⟩
    | .ok _ cx' => (feedBytes cx' xs).after cx'.out

@[simp] theorem withStream_stream (cx : Cx C) (st : StreamBuf) : (cx.withStream st).self.stream = st := rfl

@[simp] theorem withStream_incipher (cx : Cx C) (st : StreamBuf) :
    (cx.withStream st).self.incipher = cx.self.incipher := rfl

@[simp] theorem withStream_withStream (cx : Cx C) (st st' : StreamBuf) :
    (cx.withStream st).withStream st' = cx.withStream st' := rfl

section Rest

variable {cx : Cx C} {data : Bytes}

/-- Only the part of the piece that is not used up counts. -/
theorem receiveRest_drop {consumed : ℕ} (h : consumed ≤ data.length) :
    (receiveRest data consumed).run cx =
      (receiveRest (data.drop consumed) 0 >>= fun n => pure (n + consumed)).run cx := by
  by_cases hno : cx.self.recordTotal < cx.self.stream.buf.length
  · simp only [receiveRest, run_bind, self_apply, if_pos hno, panic_apply]
  · have htake : min (cx.self.recordTotal - cx.self.stream.buf.length) (data.length - consumed) ≤
        data.length - consumed := Nat.min_le_right _ _
    simp only [receiveRest, run_bind, self_apply, if_neg hno, List.length_drop, Nat.sub_zero, Nat.zero_add]
    generalize min (cx.self.recordTotal - cx.self.stream.buf.length) (data.length - consumed) = take at htake ⊢
    have hslice : (data.take (consumed + take)).drop consumed = (data.drop consumed).take take := by
      rw [List.drop_take, Nat.add_sub_cancel_left]
    simp only [slice_of_le _ (Nat.le_add_right consumed take) (show consumed + take ≤ data.length by omega), hslice,
      slice_of_le _ (Nat.zero_le take) (show take ≤ (data.drop consumed).length by simpa using htake),
      List.drop_zero, update_apply]
    by_cases hshort : (cx.self.stream.buf ++ (data.drop consumed).take take).length < cx.self.recordTotal
    · simp only [if_pos hshort, run_pure, Nat.add_comm take]
    · simp only [if_neg hshort, run_bind]
      rcases (processFramed _).run _ with _ | _
      · simp only [run_pure, Nat.add_comm take]
      · rfl

theorem receiveRest_short (hbuf : cx.self.stream.buf.length + data.length < cx.self.recordTotal) :
    (receiveRest data 0).run cx =
      .ok data.length (cx.withStream ⟨cx.self.stream.buf ++ data, cx.self.stream.reclen⟩) := by
  have hno : ¬ cx.self.recordTotal < cx.self.stream.buf.length := by omega
  have hmin : min (cx.self.recordTotal - cx.self.stream.buf.length) data.length = data.length := by omega
  have hless : (cx.self.stream.buf ++ data).length < cx.self.recordTotal := by
    rw [List.length_append]
    exact hbuf
  simp only [receiveRest, run_bind, self_apply, if_neg hno, Nat.sub_zero, hmin, Nat.zero_add,
    slice_of_le _ (Nat.zero_le _) le_rfl, List.take_length, List.drop_zero, update_apply, if_pos hless, run_pure,
    Cx.withStream]

/-- The record is complete: as many bytes as it lacked are used up. -/
theorem receiveRest_full (hbuf : cx.self.stream.buf.length < cx.self.recordTotal)
    (hfull : cx.self.recordTotal ≤ cx.self.stream.buf.length + data.length) :
    (receiveRest data 0).run cx =
      (processFramed (cx.self.stream.buf ++ data.take (cx.self.recordTotal - cx.self.stream.buf.length)) >>=
        fun _ => pure (cx.self.recordTotal - cx.self.stream.buf.length)).run
      (cx.withStream ⟨cx.self.stream.buf ++ data.take (cx.self.recordTotal - cx.self.stream.buf.length),
        cx.self.stream.reclen⟩) := by
  have hno : ¬ cx.self.recordTotal < cx.self.stream.buf.length := by omega
  have hmin : min (cx.self.recordTotal - cx.self.stream.buf.length) data.length =
      cx.self.recordTotal - cx.self.stream.buf.length := by omega
  have hmore : ¬ (cx.self.stream.buf ++ data.take (cx.self.recordTotal - cx.self.stream.buf.length)).length <
      cx.self.recordTotal := by
    rw [List.length_append, List.length_take]
    omega
  simp only [receiveRest, run_bind, self_apply, if_neg hno, Nat.sub_zero, hmin, Nat.zero_add,
    slice_of_le _ (Nat.zero_le _) (show cx.self.recordTotal - cx.self.stream.buf.length ≤ data.length by omega),
    List.drop_zero, update_apply, if_neg hmore, Cx.withStream]

end Rest

theorem two_lt_recordTotal (s : Sptps C) : 2 < s.recordTotal := by
  unfold Sptps.recordTotal
  split <;> omega

section Header

variable {cx : Cx C} {data : Bytes}

theorem receiveStream_head_short (h : cx.self.stream.buf.length + data.length < 2) :
    (receiveStream data).run cx =
      .ok data.length (cx.withStream ⟨cx.self.stream.buf ++ data, cx.self.stream.reclen⟩) := by
  have hhead : cx.self.stream.buf.length < 2 := by omega
  have hmin : min (2 - cx.self.stream.buf.length) data.length = data.length := by omega
  have hless : (cx.self.stream.buf ++ data).length < 2 := by
    rw [List.length_append]
    exact h
  simp only [receiveStream, run_bind, self_apply, if_pos hhead, hmin, slice_of_le _ (Nat.zero_le _) le_rfl,
    List.take_length, List.drop_zero, update_apply, if_pos hless, run_pure, Cx.withStream]

/-- The length bytes are there: the record is too long, or its rest is read. -/
theorem receiveStream_head {hdr : Bytes} {reclen : ℕ} (hbuf : cx.self.stream.buf.length < 2)
    (hlen : 2 ≤ cx.self.stream.buf.length + data.length)
    (hhdr : cx.self.stream.buf ++ data.take (2 - cx.self.stream.buf.length) = hdr)
    (hrec : BigEndian.decode hdr = reclen) :
    (receiveStream data).run cx =
      if cx.self.incipher.isNone ∧ MAX_PREAUTH_RECLEN < reclen then
        .error (.err .recordTooLong) (cx.withStream ⟨[], 0⟩)
      else (receiveRest data (2 - cx.self.stream.buf.length)).run (cx.withStream ⟨hdr, reclen⟩) := by
  have htake : 2 - cx.self.stream.buf.length ≤ data.length := by omega
  have hmin : min (2 - cx.self.stream.buf.length) data.length = 2 - cx.self.stream.buf.length := by omega
  have htwo : hdr.length = 2 := by
    rw [← hhdr, List.length_append, List.length_take]
    omega
  have hnot : ¬ hdr.length < 2 := by omega
  simp only [receiveStream, run_bind, self_apply, if_pos hbuf, hmin, slice_of_le _ (Nat.zero_le _) htake,
    List.drop_zero, hhdr, update_apply, if_neg hnot, slice_of_le _ (Nat.zero_le 2) htwo.ge,
    List.take_of_length_le htwo.le, hrec]
  split_ifs with hlong hall
  · simp only [run_bind, update_apply, fail_apply, Cx.withStream]
  · -- nothing is left for the body
    have hnil : data.drop (2 - cx.self.stream.buf.length) = [] := List.drop_eq_nil_of_le hall.ge
    have hopen : (cx.withStream ⟨hdr, reclen⟩).self.stream.buf.length + ([] : Bytes).length <
        (cx.withStream ⟨hdr, reclen⟩).self.recordTotal := by
      have htotal := two_lt_recordTotal (cx.withStream ⟨hdr, reclen⟩).self
      exact lt_of_eq_of_lt htwo htotal
    rw [receiveRest_drop htake, hnil, run_bind, receiveRest_short hopen]
    simp only [List.append_nil, List.length_nil, Nat.zero_add, run_pure, Cx.withStream]
  · simp only [Cx.withStream]

theorem receiveStream_body (hbuf : 2 ≤ cx.self.stream.buf.length) :
    (receiveStream data).run cx = (receiveRest data 0).run cx := by
  have hnot : ¬ cx.self.stream.buf.length < 2 := by omega
  simp only [receiveStream, run_bind, self_apply, if_neg hnot]

theorem receive_stream (hf : cx.self.framing = .stream) :
    (receive data).run cx = (receiveStream data).run cx.clearOut := by
  simp only [receive, run_bind, freshOut_apply, self_apply, hf, Cx.clearOut]

end Header

/-- What a piece does is what its first byte does and, unless a record ends there, the other bytes in the
same call. -/
def Continues (cx : Cx C) (x : UInt8) (xs : Bytes) : Prop :=
  match (receiveStream [x]).run cx with
  | .error f cx' => (receiveStream (x :: xs)).run cx = .error f cx'
  | .ok n cx₁ => n = 1 ∧ ((receiveStream (x :: xs)).run cx = .ok 1 cx₁ ∨
      cx₁.out = cx.out ∧ (receiveStream (x :: xs)).run cx = (receiveStream xs >>= fun n => pure (n + 1)).run cx₁)

section Continues

variable {cx : Cx C} {x : UInt8} {xs : Bytes}

theorem continues_of_more {st : StreamBuf} (hone : (receiveStream [x]).run cx = .ok 1 (cx.withStream st))
    (hmore : (receiveStream (x :: xs)).run cx =
      (receiveStream xs >>= fun n => pure (n + 1)).run (cx.withStream st)) : Continues cx x xs := by
  rw [Continues, hone]
  exact ⟨rfl, .inr ⟨rfl, hmore⟩⟩

theorem continues_empty (hbuf : cx.self.stream.buf = []) (hxs : xs ≠ []) : Continues cx x xs := by
  obtain ⟨y, ys, rfl⟩ := List.exists_cons_of_ne_nil hxs
  refine @continues_of_more _ _ _ _ ⟨[x], cx.self.stream.reclen⟩ ?_ ?_
  · rw [receiveStream_head_short (by simp [hbuf]), hbuf]
    rfl
  · rw [run_bind, @receiveStream_head _ _ _ [x, y] _ (by simp [hbuf]) (by simp [hbuf]) (by simp [hbuf]) rfl,
      @receiveStream_head _ (cx.withStream _) _ [x, y] _ (by simp) (by simp; omega) (by simp) rfl,
      withStream_incipher, withStream_withStream, hbuf]
    split_ifs with hlong
    · rfl
    · rw [receiveRest_drop (by simp), receiveRest_drop (by simp)]
      simp only [run_bind, withStream_stream, withStream_withStream, List.drop_succ_cons, List.drop_zero,
        List.length_cons, List.length_nil, Nat.reduceSub]
      rcases (receiveRest ys 0).run _ with _ | _ <;> rfl

theorem continues_header (hbuf : cx.self.stream.buf.length = 1) (hxs : xs ≠ []) : Continues cx x xs := by
  have htwo : (cx.self.stream.buf ++ [x]).length = 2 := by simp [hbuf]
  have hpos := List.length_pos_iff.2 hxs
  have hall := @receiveStream_head _ cx (x :: xs) (cx.self.stream.buf ++ [x]) _ (by omega)
    (by rw [hbuf, List.length_cons]; omega) (by simp [hbuf]) rfl
  have hone := @receiveStream_head _ cx [x] (cx.self.stream.buf ++ [x]) _ (by omega)
    (by simp [hbuf]) (by simp [hbuf]) rfl
  generalize BigEndian.decode (cx.self.stream.buf ++ [x]) = reclen at hall hone
  by_cases hlong : cx.self.incipher.isNone ∧ MAX_PREAUTH_RECLEN < reclen
  · rw [if_pos hlong] at hall hone
    rw [Continues, hone]
    exact hall
  · rw [if_neg hlong, hbuf, receiveRest_drop (by simp), run_bind] at hall hone
    simp only [Nat.reduceSub, List.drop_succ_cons, List.drop_zero] at hall hone
    have hopen : (cx.withStream ⟨cx.self.stream.buf ++ [x], reclen⟩).self.stream.buf.length + ([] : Bytes).length <
        (cx.withStream ⟨cx.self.stream.buf ++ [x], reclen⟩).self.recordTotal :=
      lt_of_eq_of_lt htwo (two_lt_recordTotal _)
    rw [receiveRest_short hopen, withStream_withStream, withStream_stream, List.append_nil] at hone
    refine continues_of_more hone (hall.trans ?_)
    rw [run_bind, receiveStream_body htwo.ge]

/-- The byte is one of the rest of the record, maybe its last. -/
theorem continues_body (hbuf : 2 ≤ cx.self.stream.buf.length)
    (hopen : cx.self.stream.buf.length < cx.self.recordTotal) : Continues cx x xs := by
  have hone := @receiveStream_body _ _ [x] hbuf
  have hall := @receiveStream_body _ _ (x :: xs) hbuf
  by_cases hlast : cx.self.recordTotal = cx.self.stream.buf.length + 1
  · have hneed : cx.self.recordTotal - cx.self.stream.buf.length = 1 := by omega
    rw [receiveRest_full hopen (by simp [hlast]), hneed] at hone
    rw [receiveRest_full hopen (by simp [hlast]), hneed] at hall
    simp only [List.take_succ_cons, List.take_zero, run_bind] at hone hall
    rw [Continues, hone, hall]
    rcases (processFramed _).run _ with _ | _
    · exact ⟨rfl, .inl rfl⟩
    · rfl
  · have hsame : (cx.withStream ⟨cx.self.stream.buf ++ [x], cx.self.stream.reclen⟩).self.recordTotal =
        cx.self.recordTotal := rfl
    rw [receiveRest_short (by rw [List.length_singleton]; omega)] at hone
    refine continues_of_more hone (hall.trans ?_)
    rw [run_bind, receiveStream_body (by simp; omega)]
    by_cases hshort : cx.self.stream.buf.length + (x :: xs).length < cx.self.recordTotal
    · rw [receiveRest_short hshort, receiveRest_short (by rw [hsame]; simp at hshort ⊢; omega)]
      simp
    · obtain ⟨n, hn⟩ : ∃ n, cx.self.recordTotal - cx.self.stream.buf.length = n + 1 :=
        ⟨cx.self.recordTotal - cx.self.stream.buf.length - 1, by omega⟩
      have hn' : cx.self.recordTotal - (cx.self.stream.buf ++ [x]).length = n := by
        rw [List.length_append, List.length_singleton]
        omega
      have hopen' : (cx.self.stream.buf ++ [x]).length < cx.self.recordTotal := by
        rw [List.length_append, List.length_singleton]
        omega
      have hfull : cx.self.recordTotal ≤ (cx.self.stream.buf ++ [x]).length + xs.length := by
        simp only [List.length_append, List.length_cons, List.length_nil, not_lt] at hshort ⊢
        omega
      have hrest := @receiveRest_full _ (cx.withStream ⟨cx.self.stream.buf ++ [x], cx.self.stream.reclen⟩) _
        hopen' hfull
      rw [receiveRest_full hopen (not_lt.1 hshort), hn, hrest, hsame]
      simp only [withStream_stream, withStream_withStream, hn', List.take_succ_cons, List.append_assoc,
        List.singleton_append, run_bind]
      rcases (processFramed _).run _ with _ | _ <;> rfl

theorem continues (h : cx.self.stream.buf.length < 2 ∨ cx.self.stream.buf.length < cx.self.recordTotal)
    (hxs : xs ≠ []) : Continues cx x xs := by
  rcases Nat.lt_or_ge cx.self.stream.buf.length 2 with hhead | hbody
  · rcases Nat.lt_succ_iff_lt_or_eq.1 hhead with hzero | hone
    · exact continues_empty (List.length_eq_zero_iff.1 (Nat.lt_one_iff.1 hzero)) hxs
    · exact continues_header hone hxs
  · exact continues_body hbody (by omega)

end Continues

structure Steady (cx : Cx C) : Prop where
  framing : cx.self.framing = .stream
  framed : Framed cx.self

section Feed

variable {cx : Cx C}

theorem Steady.clearOut (h : Steady cx) : Steady cx.clearOut := ⟨h.framing, h.framed⟩

theorem Steady.receive (h : Steady cx) {data : Bytes} {n : ℕ} {cx' : Cx C}
    (hrun : (receive data).run cx = .ok n cx') : Steady cx' := by
  have hframed := receive_framed cx data
  have hrec := receive_received cx data
  unfold Ends Post at hframed hrec
  rw [hrun] at hframed hrec
  exact ⟨hrec.same_framing.trans h.framing, hframed⟩

theorem receive_clearOut (cx : Cx C) (data : Bytes) : (receive data).run cx.clearOut = (receive data).run cx := rfl

theorem feedBytes_clearOut (cx : Cx C) (data : Bytes) : feedBytes cx.clearOut data = feedBytes cx data := by
  cases data with
  | nil => rfl
  | cons x xs => rw [feedBytes, feedBytes, receive_clearOut]

/-- The step: a call on several bytes, and the call on the first of them. -/
theorem Steady.step (h : Steady cx) (x : UInt8) {xs : Bytes} (hxs : xs ≠ []) :
    (∃ f cx', (Sptps.receive [x]).run cx = .error f cx' ∧ (Sptps.receive (x :: xs)).run cx = .error f cx') ∨
    ∃ cx₁, (Sptps.receive [x]).run cx = .ok 1 cx₁ ∧ ((Sptps.receive (x :: xs)).run cx = .ok 1 cx₁ ∨
      cx₁.out = [] ∧ (Sptps.receive (x :: xs)).run cx = (Sptps.receive xs >>= fun n => pure (n + 1)).run cx₁) := by
  have hcont : Continues cx.clearOut x xs := by
    refine continues ?_ hxs
    rcases Nat.lt_or_ge cx.self.stream.buf.length 2 with hlt | hge
    · exact .inl hlt
    · exact .inr (h.framed h.framing hge)
  rw [Continues, ← receive_stream h.framing, ← receive_stream h.framing] at hcont
  cases hone : (Sptps.receive [x]).run cx with
  | error f cx' =>
    rw [hone] at hcont
    exact .inl ⟨f, cx', rfl, hcont⟩
  | ok n cx₁ =>
    rw [hone] at hcont
    obtain ⟨rfl, hends | ⟨hout, hmore⟩⟩ := hcont
    · exact .inr ⟨cx₁, rfl, .inl hends⟩
    · have hclear : cx₁.clearOut = cx₁ := by
        rw [Cx.clearOut, ← show cx₁.out = [] from hout]
      have hstream : (Sptps.receive xs).run cx₁ = (receiveStream xs).run cx₁ := by
        rw [receive_stream (h.receive hone).framing, hclear]
      refine .inr ⟨cx₁, rfl, .inr ⟨hout, ?_⟩⟩
      rw [hmore, run_bind, run_bind, hstream]

/-- A call that returns has used up at least one byte. -/
theorem Steady.progress {data : Bytes} {n : ℕ} {cx' : Cx C} (h : Steady cx) (hdata : data ≠ [])
    (hrun : (Sptps.receive data).run cx = .ok n cx') : 1 ≤ n ∧ n ≤ data.length := by
  induction data generalizing cx n with
  | nil => exact absurd rfl hdata
  | cons x xs ih =>
    by_cases hxs : xs = []
    · subst hxs
      rcases @Steady.step _ _ h x [x] (by simp) with ⟨f, cx₁, hone, -⟩ | ⟨cx₁, hone, -⟩
      · cases hone.symm.trans hrun
      · cases hone.symm.trans hrun
        exact ⟨le_rfl, le_rfl⟩
    · rcases h.step x hxs with ⟨f, cx₁, -, hall⟩ | ⟨cx₁, hone, hall | ⟨-, hall⟩⟩
      · cases hall.symm.trans hrun
      · cases hall.symm.trans hrun
        simp
      · rw [hall, run_bind] at hrun
        cases hrest : (Sptps.receive xs).run cx₁ with
        | error f cx₂ =>
          rw [hrest] at hrun
          cases hrun
        | ok m cx₂ =>
          rw [hrest] at hrun
          cases hrun
          have := ih (h.receive hone) hxs hrest
          rw [List.length_cons]
          omega

@[simp] theorem Fed.after_nil (r : Fed C) : r.after [] = r := rfl

theorem Fed.after_after (outs outs' : List Output) (r : Fed C) : (r.after outs').after outs = r.after (outs ++ outs') := by
  simp [Fed.after]

theorem Fed.andThen_after (outs : List Output) (r : Fed C) (f : Cx C → Option (Fed C)) :
    (r.after outs).andThen f = (r.andThen f).map (Fed.after outs) := by
  unfold Fed.andThen
  change (match r.error with | some _ => _ | none => _) = _
  cases r.error with
  | some e => rfl
  | none =>
    rw [Option.map_map]
    exact congrArg (Option.map · (f r.cx)) (funext fun r' => (Fed.after_after outs r.outs r').symm)

theorem feedFuel_succ {data : Bytes} (hdata : data ≠ []) (n : ℕ) (cx : Cx C) :
    feedFuel (n + 1) cx data =
      match (receive data).run cx with
      | .error f cx' => some ⟨cx'.clearOut, [], some f⟩
      | .ok k cx' => (feedFuel n cx' (data.drop k)).map (Fed.after cx'.out) := by
  obtain ⟨x, xs, rfl⟩ := List.exists_cons_of_ne_nil hdata
  rfl

/-- However many calls it takes, the bytes might as well have come one by one. -/
theorem feedFuel_eq_feedBytes {data : Bytes} {n : ℕ} (h : Steady cx) (hn : data.length ≤ n) :
    feedFuel n cx data = some (feedBytes cx data) := by
  induction hlen : data.length using Nat.strong_induction_on generalizing data n cx with
  | h len ih =>
    cases data with
    | nil => cases n <;> rfl
    | cons x xs =>
      obtain ⟨n, rfl⟩ : ∃ m, n = m + 1 := ⟨n - 1, by simp at hn; omega⟩
      have hxn : xs.length ≤ n := by simpa using hn
      have hsmall : ∀ k, (xs.drop k).length < len := by
        intro k
        rw [← hlen, List.length_drop, List.length_cons]
        omega
      rw [feedFuel_succ (by simp), feedBytes]
      by_cases hxs : xs = []
      · subst hxs
        cases hone : (Sptps.receive [x]).run cx with
        | error f cx' => rfl
        | ok k cx' =>
          have hk : [x].drop k = [] := List.drop_eq_nil_of_le (h.progress (by simp) hone).1
          dsimp only
          rw [hk, ih _ (by simp [← hlen]) (h.receive hone) (Nat.zero_le n) rfl]
          rfl
      · rcases h.step x hxs with ⟨f, cx', hone, hall⟩ | ⟨cx₁, hone, hall | ⟨hout, hall⟩⟩
        · rw [hone, hall]
        · -- a record ends with the first byte
          rw [hone, hall]
          dsimp only
          rw [List.drop_succ_cons, List.drop_zero, ih _ (hsmall 0) (h.receive hone) hxn rfl]
          rfl
        · -- the same call goes on: compare with the call on the other bytes
          have hrest : feedFuel xs.length _ xs = _ := ih _ (hsmall 0) (h.receive hone) le_rfl rfl
          obtain ⟨m, hm⟩ : ∃ m, xs.length = m + 1 := ⟨xs.length - 1, by
            have := List.length_pos_iff.2 hxs
            omega⟩
          rw [hm, feedFuel_succ hxs] at hrest
          rw [hone, hall, run_bind]
          dsimp only
          rw [hout, Fed.after_nil]
          cases hmore : (Sptps.receive xs).run cx₁ with
          | error f cx' =>
            rw [hmore] at hrest
            exact hrest
          | ok k cx' =>
            rw [hmore] at hrest
            dsimp only at hrest
            have hk := ((h.receive hone).progress hxs hmore).1
            have hsteady := (h.receive hone).receive hmore
            rw [ih _ (hsmall k) hsteady (by rw [List.length_drop]; omega) rfl] at hrest
            simp only [run_pure, List.drop_succ_cons]
            rw [ih _ (hsmall k) hsteady (by rw [List.length_drop]; omega) rfl]
            exact hrest

theorem feed_eq_feedBytes (h : Steady cx) (data : Bytes) : feed cx data = some (feedBytes cx data) :=
  feedFuel_eq_feedBytes h le_rfl

/-- The session that is left is one between two calls. -/
theorem Steady.feedBytes (h : Steady cx) {data : Bytes} (hok : (feedBytes cx data).error = none) :
    Steady (feedBytes cx data).cx := by
  induction data generalizing cx with
  | nil => exact h.clearOut
  | cons x xs ih =>
    rw [Sptps.feedBytes] at hok ⊢
    cases hone : (Sptps.receive [x]).run cx with
    | error f cx' =>
      rw [hone] at hok
      cases hok
    | ok k cx' =>
      rw [hone] at hok
      exact ih (h.receive hone) hok

theorem feedBytes_append (cx : Cx C) (a b : Bytes) :
    (feedBytes cx a).andThen (fun cx' => some (feedBytes cx' b)) = some (feedBytes cx (a ++ b)) := by
  induction a generalizing cx with
  | nil => simp [feedBytes, Fed.andThen, feedBytes_clearOut]
  | cons x xs ih =>
    rw [List.cons_append, feedBytes, feedBytes]
    cases hone : (receive [x]).run cx with
    | error f cx' => rfl
    | ok k cx' =>
      dsimp only
      rw [Fed.andThen_after, ih]
      rfl

theorem feedAll_eq_feedBytes {chunks : List Bytes} (h : Steady cx) :
    feedAll cx chunks = some (feedBytes cx chunks.flatten) := by
  induction chunks generalizing cx with
  | nil => rfl
  | cons chunk chunks ih =>
    rw [feedAll, feed_eq_feedBytes h, Option.bind_some, List.flatten_cons, ← feedBytes_append]
    unfold Fed.andThen
    cases herr : (feedBytes cx chunk).error with
    | some f => rfl
    | none =>
      dsimp only
      rw [ih (h.feedBytes herr)]

end Feed

/-- The outputs, the session that is left and the first error are those of the whole string, and a call
on bytes uses some of them up or fails with an error. -/
theorem feedAll_eq_feed {cfg : Config C} {cx : Cx C} (hrun : Run cfg cx) (hf : cx.self.framing = .stream)
    (rng : C.Rng) (chunks : List Bytes) :
    (∃ r, feedAll (cx.withRng rng) chunks = some r ∧ feed (cx.withRng rng) chunks.flatten = some r) ∧
    ∀ data ≠ [], (∃ n cx', (receive data).run (cx.withRng rng) = .ok n cx' ∧ 1 ≤ n ∧ n ≤ data.length) ∨
      ∃ e cx', (receive data).run (cx.withRng rng) = .error (.err e) cx' := by
  obtain ⟨hpresent, hframed⟩ := present_run hrun
  have h : Steady (cx.withRng rng) := ⟨hf, hframed⟩
  refine ⟨⟨_, feedAll_eq_feedBytes h, feed_eq_feedBytes h _⟩, fun data hdata => ?_⟩
  have hsafe := @receive_noPanic _ (cx.withRng rng) hpresent hframed data
  cases hres : (receive data).run (cx.withRng rng) with
  | ok n cx' => exact .inl ⟨n, cx', rfl, h.progress hdata hres⟩
  | error f cx' =>
    cases f with
    | err e => exact .inr ⟨e, cx', rfl⟩
    | panic p => exact absurd hres (hsafe.run_ne p)

/-- A data record for the null session, in three pieces: the first cuts its length, the second its body. -/
def nullPieces : List Bytes :=
  let wire := recordWire (C := Crypto.null) .stream nullDone.self.incipher nullDone.self.inseqno 5 [7]
  [wire.take 1, (wire.drop 1).take 4, wire.drop 5]

theorem feedAll_eq_feed_nullDone : Run nullConfig nullDone ∧
    ∃ r, feedAll (nullDone.withRng ()) nullPieces = some r ∧
      feed (nullDone.withRng ()) nullPieces.flatten = some r ∧ r.outs = [.record 5 [7]] := by
  have hframing : nullDone.self.framing = .stream := by decide +kernel
  have houts : (feed (nullDone.withRng ()) nullPieces.flatten).map Fed.outs = some [.record 5 [7]] := by
    decide +kernel
  obtain ⟨⟨r, hall, hwhole⟩, -⟩ := feedAll_eq_feed nullDone_run hframing () nullPieces
  rw [hwhole] at houts
  exact ⟨nullDone_run, r, hall, hwhole, Option.some.inj houts⟩

end Tincr.Sptps
