import Mathlib

/-!
The transmit batch and the two ways to ship it. A batch is a run of sealed frames for one destination
and one listener, packed back to back: all frames but the last have the length of the first, and the
last may be shorter. Shipping cuts the buffer at the stride, frame by frame or in the kernel, and gives
the staged frames back.
-/

namespace Tincr.Net

abbrev UDP_MAX_SEGMENTS : ℕ := 128

abbrev BATCH_MAX_BYTES : ℕ := 0xFFFF - 48

/-- A sealed frame: never empty, and short enough for a datagram. -/
structure Frame where
  bytes : List UInt8
  nonempty : 0 < bytes.length
  small : bytes.length < 2 ^ 16

structure Datagram (Addr : Type) where
  sock : ℕ
  dst : Addr
  frame : Frame

def Datagram.bytes {Addr : Type} (d : Datagram Addr) : List UInt8 := d.frame.bytes

/-- A run as the egress gets it: `count` frames of `stride` bytes, the last of `lastLen`. -/
structure EgressBatch (Addr : Type) where
  dst : Addr
  frames : List UInt8
  stride : ℕ
  count : ℕ
  lastLen : ℕ

/-- One `sendto` for each frame, or one `sendmsg` that the kernel splits. -/
inductive Backend
  | portable
  | gso
deriving DecidableEq, Repr

/-- A send with `UDP_SEGMENT`: datagrams of `stride` bytes, the last one with what is left. -/
def segments (stride : ℕ) (xs : List UInt8) : List (List UInt8) :=
  if stride = 0 ∨ xs.length ≤ stride then [xs]
  else xs.take stride :: segments stride (xs.drop stride)
termination_by xs.length
decreasing_by
  rw [List.length_drop]
  omega

def Backend.sendBatch {Addr : Type} (backend : Backend) (b : EgressBatch Addr) : List (List UInt8) :=
  match backend with
  | .portable => (List.range b.count).map fun i =>
      (b.frames.drop (i * b.stride)).take (if i + 1 = b.count then b.lastLen else b.stride)
  | .gso => if b.count = 1 then [b.frames.take b.lastLen] else segments b.stride b.frames

structure TxBatch (Addr : Type) where
  buf : List UInt8
  stride : ℕ
  lastLen : ℕ
  count : ℕ
  dst : Option Addr
  sock : ℕ
  relay : ℕ
  origlen : ℕ

namespace TxBatch

variable {Addr : Type}

def empty : TxBatch Addr := ⟨[], 0, 0, 0, none, 0, 0, 0⟩

def canCoalesce [DecidableEq Addr] (b : TxBatch Addr) (dst : Addr) (sock frameLen : ℕ) : Bool :=
  if b.count = 0 then true
  else if 2 ^ 16 ≤ frameLen then false
  else b.sock = sock && b.count < UDP_MAX_SEGMENTS && b.buf.length + frameLen ≤ BATCH_MAX_BYTES &&
    b.lastLen = b.stride && frameLen ≤ b.stride && b.dst = some dst

/-- The first frame defines the run. -/
def stage (b : TxBatch Addr) (dst : Addr) (sock relay origlen : ℕ) (frame : List UInt8) : TxBatch Addr :=
  let len := frame.length % 2 ^ 16
  if b.count = 0 then ⟨frame, len, len, 1, some dst, sock, relay, origlen⟩
  else { b with buf := b.buf ++ frame, lastLen := len, count := b.count + 1 }

def take (b : TxBatch Addr) : Option (EgressBatch Addr × ℕ × ℕ × ℕ) :=
  if b.count = 0 then none
  else b.dst.map fun dst => (⟨dst, b.buf, b.stride, b.count, b.lastLen⟩, b.sock, b.relay, b.origlen)

def reset (b : TxBatch Addr) : TxBatch Addr := { b with count := 0, dst := none }

end TxBatch

section Cut

/-- All payloads but the last have the length of the stride; the last is not longer, and not empty. -/
def Strided (stride : ℕ) : List (List UInt8) → Prop
  | [] => True
  | [x] => 0 < x.length ∧ x.length ≤ stride
  | x :: y :: ys => x.length = stride ∧ Strided stride (y :: ys)

variable {stride : ℕ} {xs : List (List UInt8)} {x y : List UInt8}

theorem strided_snoc (hxs : ∀ x ∈ xs, x.length = stride) (hpos : 0 < y.length) (hle : y.length ≤ stride) :
    Strided stride (xs ++ [y]) := by
  induction xs with
  | nil => exact ⟨hpos, hle⟩
  | cons x xs ih =>
    have hx := hxs x List.mem_cons_self
    have hrest := ih fun z hz => hxs z (List.mem_cons_of_mem _ hz)
    cases xs with
    | nil | cons z zs => exact ⟨hx, hrest⟩

/-- A run whose last frame is full has only full frames. -/
theorem Strided.full (h : Strided stride xs) (hlast : ∀ x, xs.getLast? = some x → x.length = stride) :
    ∀ x ∈ xs, x.length = stride := by
  induction xs with
  | nil => simp
  | cons x xs ih =>
    cases xs with
    | nil => simpa using hlast x rfl
    | cons y ys =>
      intro z hz
      rcases List.mem_cons.1 hz with rfl | hz
      · exact h.1
      · exact ih h.2 (fun w hw => hlast w (by rwa [List.getLast?_cons_cons])) z hz

theorem Strided.length_pos (h : Strided stride (x :: xs)) : 0 < (x :: xs).flatten.length := by
  induction xs generalizing x with
  | nil => simpa using h.1
  | cons y ys ih =>
    have := ih h.2
    simp only [List.flatten_cons, List.length_append] at this ⊢
    omega

theorem Strided.stride_pos (h : Strided stride (x :: xs)) : 0 < stride := by
  induction xs generalizing x with
  | nil => exact h.1.trans_le h.2
  | cons y ys ih => exact ih h.2

theorem segments_flatten (h : Strided stride (x :: xs)) :
    segments stride (x :: xs).flatten = x :: xs := by
  induction xs generalizing x with
  | nil =>
    rw [segments, if_pos]
    · simp
    · right
      simpa using h.2
  | cons y ys ih =>
    have hpos := h.2.length_pos
    have hlen : (x :: y :: ys).flatten.length = stride + (y :: ys).flatten.length := by
      rw [List.flatten_cons, List.length_append, h.1]
    have hstride := h.stride_pos
    rw [segments, if_neg (by omega), List.flatten_cons, List.take_left' h.1, List.drop_left' h.1, ih h.2]

theorem slices_flatten (h : Strided stride (x :: xs)) {lastLen : ℕ}
    (hlast : ∀ z, (x :: xs).getLast? = some z → z.length = lastLen) :
    ((List.range (x :: xs).length).map fun i =>
      ((x :: xs).flatten.drop (i * stride)).take
        (if i + 1 = (x :: xs).length then lastLen else stride)) = x :: xs := by
  induction xs generalizing x with
  | nil =>
    have hx := hlast x rfl
    simp [← hx]
  | cons y ys ih =>
    have htail := ih h.2 fun z hz => hlast z (by rwa [List.getLast?_cons_cons])
    rw [List.length_cons, List.range_succ_eq_map, List.map_cons, List.map_map]
    congr 1
    · rw [if_neg (by simp), Nat.zero_mul, List.drop_zero, List.flatten_cons, List.take_left' h.1]
    · refine Eq.trans (List.map_congr_left fun i _ => ?_) htail
      have hdrop : (x :: y :: ys).flatten.drop ((i + 1) * stride) =
          (y :: ys).flatten.drop (i * stride) := by
        rw [Nat.succ_mul, Nat.add_comm, ← List.drop_drop, List.flatten_cons, List.drop_left' h.1]
      simp only [Function.comp_apply, Nat.succ_eq_add_one, hdrop, List.length_cons, Nat.add_right_cancel_iff]

end Cut

namespace TxBatch

variable {Addr : Type}

/-- The batch holds the datagrams `ds`, in this order. -/
structure Holds (b : TxBatch Addr) (ds : List (Datagram Addr)) : Prop where
  count : b.count = ds.length
  dst : ∀ d ∈ ds, b.dst = some d.dst
  sock : ∀ d ∈ ds, b.sock = d.sock
  buf : ds ≠ [] → b.buf = (ds.map Datagram.bytes).flatten
  strided : Strided b.stride (ds.map Datagram.bytes)
  last : ∀ x, (ds.map Datagram.bytes).getLast? = some x → x.length = b.lastLen

variable {b : TxBatch Addr} {ds : List (Datagram Addr)}

theorem holds_nil (h : b.count = 0) : b.Holds [] where
  count := h
  dst := by simp
  sock := by simp
  buf := by simp
  strided := trivial
  last := by simp

theorem Holds.nil_of_count (h : b.Holds ds) (hcount : b.count = 0) : ds = [] :=
  List.eq_nil_of_length_eq_zero (h.count.symm.trans hcount)

/-- Staging a frame that can extend the run, or that starts one, adds it at the end. -/
theorem Holds.stage [DecidableEq Addr] (h : b.Holds ds) (d : Datagram Addr) (relay origlen : ℕ)
    (hcan : b.canCoalesce d.dst d.sock d.bytes.length = true) :
    (b.stage d.dst d.sock relay origlen d.bytes).Holds (ds ++ [d]) := by
  have hsmall : d.bytes.length % 2 ^ 16 = d.bytes.length := Nat.mod_eq_of_lt d.frame.small
  unfold canCoalesce at hcan
  unfold TxBatch.stage
  simp only [hsmall]
  by_cases hzero : b.count = 0
  · obtain rfl := h.nil_of_count hzero
    rw [if_pos hzero]
    exact ⟨rfl, by simp, by simp, by simp, ⟨d.frame.nonempty, le_rfl⟩, by simp⟩
  · rw [if_neg hzero] at hcan ⊢
    have hne : ds ≠ [] := by
      rintro rfl
      exact hzero h.count
    rw [if_neg (by exact Nat.not_le.2 d.frame.small)] at hcan
    simp only [Bool.and_eq_true, decide_eq_true_eq] at hcan
    obtain ⟨⟨⟨⟨⟨hsock, -⟩, -⟩, hlast⟩, hle⟩, hdst⟩ := hcan
    have hfull := h.strided.full fun x hx => (h.last x hx).trans hlast
    refine ⟨by simp [h.count], ?_, ?_, ?_, ?_, ?_⟩
    · intro e he
      rcases List.mem_append.1 he with he | he
      · exact h.dst e he
      · rw [List.mem_singleton.1 he]
        exact hdst
    · intro e he
      rcases List.mem_append.1 he with he | he
      · exact h.sock e he
      · rw [List.mem_singleton.1 he]
        exact hsock
    · intro _
      simp [h.buf hne]
    · rw [List.map_append]
      exact strided_snoc hfull d.frame.nonempty hle
    · intro x hx
      simp only [List.map_append, List.map_cons, List.map_nil, List.getLast?_append, List.getLast?_singleton,
        Option.some_or, Option.some.injEq] at hx
      rw [← hx]

/-- Shipping a batch sends the payloads it holds. -/
theorem Holds.take (h : b.Holds ds) (hne : ds ≠ []) (backend : Backend) :
    ∃ e relay origlen, b.take = some (e, b.sock, relay, origlen) ∧
      backend.sendBatch e = ds.map Datagram.bytes ∧ ∀ d ∈ ds, d.dst = e.dst ∧ d.sock = b.sock := by
  obtain ⟨d, ds, rfl⟩ := List.exists_cons_of_ne_nil hne
  have hdst := h.dst d List.mem_cons_self
  have hcount : b.count ≠ 0 := by
    rw [h.count]
    simp
  refine ⟨⟨d.dst, b.buf, b.stride, b.count, b.lastLen⟩, b.relay, b.origlen, ?_, ?_, ?_⟩
  · rw [TxBatch.take, if_neg hcount, hdst]
    rfl
  · have hbuf := h.buf hne
    have hlen := h.count
    have hstrided := h.strided
    have hlast := h.last
    rw [List.map_cons] at hbuf hstrided hlast
    cases backend with
    | portable =>
      simp only [Backend.sendBatch, hbuf, hlen]
      have hslices := slices_flatten hstrided hlast
      rwa [List.length_cons, List.length_map] at hslices
    | gso =>
      simp only [Backend.sendBatch, hbuf]
      split_ifs with hone
      · obtain rfl : ds = [] := by
          rw [hlen, List.length_cons] at hone
          exact List.eq_nil_of_length_eq_zero (by omega)
        have := hlast d.bytes rfl
        simp [← this]
      · rw [segments_flatten hstrided]
        rfl
  · intro e he
    refine ⟨?_, (h.sock e he).symm⟩
    have := h.dst e he
    rw [hdst, Option.some.injEq] at this
    exact this.symm

end TxBatch

end Tincr.Net
