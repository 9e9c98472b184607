import Tincr.Sptps.Honest

/-!
One direction of a session. `Lane` follows the records in flight from what the receiver reads with now
to what the sender writes with now: application records move nothing but the number, and each handshake
message in flight says how the receiver reads after it. `Flow` ties a lane to the two logs and to the
bytes on the wire; a delivery takes the first record off it, a send puts one at its end.
-/

set_option linter.dupNamespace false

namespace Tincr.Sptps

open EStateM M

variable {C : Crypto}

def Rec.app (r : Rec) : Option (UInt8 × Bytes) :=
  if r.ty < REC_HANDSHAKE then some (r.ty, r.body) else none

def apps (rs : List Rec) : List (UInt8 × Bytes) := rs.filterMap Rec.app

theorem apps_hsRecs (c : Option SptpsCipher) (n : UInt32) (bodies : List Bytes) : apps (hsRecs c n bodies) = [] := by
  induction bodies generalizing n with
  | nil => rfl
  | cons body rest ih => exact ih (n + 1)

/-- How a side reads: the cipher, and whether it lets application records through. -/
structure View where
  cipher : Option SptpsCipher
  app : Bool

/-- A handshake message in flight: its body, and how its receiver reads after it if that changes. -/
structure Hs where
  body : Bytes
  after : Option View

def Sptps.readView (s : Sptps C) : View := ⟨s.incipher, s.incipher.isSome && s.state != .confirm⟩

def Sptps.sendView (s : Sptps C) : View := ⟨s.outcipher, true⟩

/-- The records in flight between a receiver that reads with `v` from number `n` and a sender at `v'`
and `n'`, with the handshake messages `hs` among them. -/
inductive Lane : View → UInt32 → List Hs → View → UInt32 → List Rec → Prop
  | nil (v n) : Lane v n [] v n []
  | app {c n hs v' n' q ty body} (hty : ty < REC_HANDSHAKE) (hbody : body.length < 2 ^ 16)
      (h : Lane ⟨some c, true⟩ (n + 1) hs v' n' q) :
      Lane ⟨some c, true⟩ n hs v' n' (⟨some c, n, ty, body⟩ :: q)
  | hs {v n v' n' q} (m : Hs) {hs} (hbody : m.body.length ≤ MAX_PREAUTH_RECLEN)
      (h : Lane (m.after.getD v) (n + 1) hs v' n' q) :
      Lane v n (m :: hs) v' n' (⟨v.cipher, n, REC_HANDSHAKE, m.body⟩ :: q)

section Lane

variable {v v' v'' : View} {n n' n'' : UInt32} {hs hs' : List Hs} {q q' : List Rec}

theorem Lane.append (h : Lane v n hs v' n' q) (h' : Lane v' n' hs' v'' n'' q') :
    Lane v n (hs ++ hs') v'' n'' (q ++ q') := by
  induction h with
  | nil => exact h'
  | app hty hbody _ ih => exact .app hty hbody (ih h')
  | hs m hbody _ ih => exact .hs m hbody (ih h')

/-- With no handshake message in flight and no application record let through, nothing is in flight. -/
theorem Lane.closed (h : Lane v n [] v' n' q) (hv : v.app = false) : q = [] ∧ v' = v ∧ n' = n := by
  cases h with
  | nil => exact ⟨rfl, rfl, rfl⟩
  | app => cases hv

theorem Lane.fits {r : Rec} (h : Lane v n hs v' n' (r :: q)) : r.body.length < 2 ^ 16 ∧
    (r.cipher = none → r.body.length ≤ MAX_PREAUTH_RECLEN) ∧ r.cipher = v.cipher ∧ r.seqno = n := by
  have hmax : MAX_PREAUTH_RECLEN < 2 ^ 16 := by decide
  cases h with
  | app _ hbody => exact ⟨hbody, (nomatch ·), rfl, rfl⟩
  | hs m hbody => exact ⟨lt_of_le_of_lt hbody hmax, fun _ => hbody, rfl, rfl⟩

/-- The first record in flight: an application record that is let through, or the next handshake message. -/
theorem Lane.uncons {r : Rec} (h : Lane v n hs v' n' (r :: q)) :
    (r.ty < REC_HANDSHAKE ∧ r.cipher.isSome = true ∧ v.app = true ∧ Lane v (n + 1) hs v' n' q) ∨
    (r.ty = REC_HANDSHAKE ∧ ∃ m hs', hs = m :: hs' ∧ r.body = m.body ∧
      Lane (m.after.getD v) (n + 1) hs' v' n' q) := by
  cases h with
  | app hty _ hrest => exact .inl ⟨hty, rfl, rfl, hrest⟩
  | hs m _ hrest => exact .inr ⟨rfl, m, _, rfl, rfl, hrest⟩

/-- Handshake messages that change nothing at the receiver. -/
def plain (bodies : List Bytes) : List Hs := bodies.map (⟨·, none⟩)

theorem lane_plain {bodies : List Bytes} (h : ∀ body ∈ bodies, body.length ≤ MAX_PREAUTH_RECLEN) :
    Lane v n (plain bodies) v (n + UInt32.ofNat bodies.length) (hsRecs v.cipher n bodies) := by
  induction bodies generalizing n with
  | nil => simpa [plain, hsRecs] using Lane.nil v n
  | cons body rest ih =>
    have hrest := ih (n := n + 1) fun b hb => h b (List.mem_cons_of_mem _ hb)
    rw [show n + UInt32.ofNat (body :: rest).length = n + 1 + UInt32.ofNat rest.length by
      simp [UInt32.ofNat_add, add_assoc, add_comm]]
    exact .hs ⟨body, none⟩ (h body (List.mem_cons_self ..)) hrest

theorem lane_hs (m : Hs) (h : m.body.length ≤ MAX_PREAUTH_RECLEN) :
    Lane v n [m] (m.after.getD v) (n + 1) [⟨v.cipher, n, REC_HANDSHAKE, m.body⟩] :=
  .hs m h (.nil _ _)

end Lane

/-- What the reassembly buffer holds of the records in flight: less than the first one. -/
def Buffered (C : Crypto) (st : StreamBuf) : List Rec → Prop
  | [] => st.buf = []
  | r :: _ => st.buf.length < (r.wire C).length ∧ (2 ≤ st.buf.length → st.reclen = r.body.length)

theorem Buffered.append {st : StreamBuf} {q rs : List Rec} (h : Buffered C st q) :
    Buffered C st (q ++ rs) := by
  cases q with
  | nil =>
    cases rs with
    | nil => exact h
    | cons r rs =>
      have hlen : st.buf.length = 0 := by rw [h, List.length_nil]
      refine ⟨?_, fun h2 => by omega⟩
      rw [hlen, length_wire]
      omega
  | cons r q => exact h

/-- One direction at rest: `S` has sealed what `R` has opened and the records `q` after it, whose bytes
are in `R`'s buffer and in flight. `R` reads with `v`. -/
structure Flow (v : View) (S R : Cx C) (inbox : Bytes) (hs : List Hs) (v' : View) (q : List Rec) : Prop where
  logs : sealedRecs S.log = openedRecs R.log ++ q
  bytes : R.self.stream.buf ++ inbox = (q.map (Rec.wire C)).flatten
  lane : Lane v R.self.inseqno hs v' S.self.outseqno.toUInt32 q
  buffered : Buffered C R.self.stream q

section Flow

variable {v v' v'' : View} {S S' R R' : Cx C} {inbox : Bytes} {hs hs' : List Hs} {q rs : List Rec}

theorem Flow.send (h : Flow v S R inbox hs v' q) (hlog : sealedRecs S'.log = sealedRecs S.log ++ rs)
    (hl : Lane v' S.self.outseqno.toUInt32 hs' v'' S'.self.outseqno.toUInt32 rs) :
    Flow v S' R (inbox ++ (rs.map (Rec.wire C)).flatten) (hs ++ hs') v'' (q ++ rs) where
  logs := by rw [hlog, h.logs, List.append_assoc]
  bytes := by rw [← List.append_assoc, h.bytes, List.map_append, List.flatten_append]
  lane := h.lane.append hl
  buffered := h.buffered.append

/-- The buffer alone never holds a whole record: with no bytes in flight everything was opened. -/
theorem Flow.drained (h : Flow v S R inbox hs v' q) (hin : inbox = []) : q = [] := by
  cases q with
  | nil => rfl
  | cons r q =>
    have hbytes := congrArg List.length h.bytes
    have hless := h.buffered.1
    simp only [hin, List.append_nil, List.map_cons, List.flatten_cons, List.length_append] at hbytes
    omega

theorem Flow.receiver (h : Flow v S R inbox hs v' q) (hlog : openedRecs R'.log = openedRecs R.log)
    (hst : R'.self.stream = R.self.stream) (hn : R'.self.inseqno = R.self.inseqno) :
    Flow v S R' inbox hs v' q where
  logs := by rw [h.logs, hlog]
  bytes := by rw [hst, h.bytes]
  lane := hn ▸ h.lane
  buffered := hst ▸ h.buffered

theorem Flow.take {r : Rec} (h : Flow v S R inbox hs v' (r :: q)) (st : StreamBuf)
    (hl : Lane v'' (r.seqno + 1) hs' v' S.self.outseqno.toUInt32 q) :
    Flow v'' S ((R.clearOut.withStream st).tookRec r)
      (inbox.drop ((r.wire C).length - R.self.stream.buf.length)) hs' v' q where
  logs := by
    rw [h.logs]
    simp [Cx.tookRec, Cx.withStream, Cx.clearOut, openedRecs, Event.openedRec]
  bytes := by
    have hbytes := congrArg (List.drop (r.wire C).length) h.bytes
    rw [List.drop_append, List.drop_of_length_le h.buffered.1.le, List.nil_append, List.map_cons,
      List.flatten_cons, List.drop_left] at hbytes
    exact hbytes
  lane := hl
  buffered := by
    cases q with
    | nil => rfl
    | cons r' q' =>
      refine ⟨?_, fun h2 => absurd h2 (by simp [Cx.tookRec])⟩
      rw [length_wire]
      simp only [Cx.tookRec, List.length_nil]
      omega

theorem receive_nil {cx : Cx C} (hf : cx.self.framing = .stream) (hb : cx.self.stream.buf = []) :
    (receive []).run cx = .ok 0 (cx.clearOut.withStream ⟨[], cx.self.stream.reclen⟩) := by
  refine (run_bind_ok (freshOut_apply cx)).trans ((run_bind_ok (self_apply _)).trans ?_)
  have hslice (cx' : Cx C) := slice_of_le cx' (Nat.le_refl 0) (Nat.zero_le ([] : Bytes).length)
  simp [receiveStream, hf, hb, hslice, Cx.clearOut, Cx.withStream]

/-- The next bytes at a receiver that reads as the flow says: they are buffered, or they complete the
first record in flight, which is then dispatched as what it was sealed as. -/
theorem Flow.deliver (hC : C.Correct) (hf : R.self.framing = .stream)
    (h : Flow R.self.readView S R inbox hs v' q) (n : ℕ) :
    (∃ st k, (receive (inbox.take n)).run R = .ok k (R.clearOut.withStream st) ∧
      Flow R.self.readView S (R.clearOut.withStream st) (inbox.drop k) hs v' q) ∨
    (∃ st r q' k, (receive (inbox.take n)).run R =
        (dispatchRecord r.ty r.body r.cipher.isSome >>= fun _ => pure k).run
          ((R.clearOut.withStream st).tookRec r) ∧
      ((r.ty < REC_HANDSHAKE ∧ r.cipher.isSome = true ∧ R.self.readView.app = true ∧
          Flow R.self.readView S ((R.clearOut.withStream st).tookRec r) (inbox.drop k) hs v' q') ∨
        r.ty = REC_HANDSHAKE ∧ ∃ m hs', hs = m :: hs' ∧ r.body = m.body ∧
          Flow (m.after.getD R.self.readView) S ((R.clearOut.withStream st).tookRec r)
            (inbox.drop k) hs' v' q')) := by
  cases q with
  | nil =>
    have hb : R.self.stream.buf = [] := h.buffered
    have hin : inbox = [] := by simpa [hb] using h.bytes
    subst hin
    left
    exact ⟨⟨[], R.self.stream.reclen⟩, 0, by simpa using receive_nil hf hb, h.logs, rfl, h.lane, rfl⟩
  | cons r q =>
    obtain ⟨hfits, hpre, hcipher, hseqno⟩ := h.lane.fits
    have hbytes : R.self.stream.buf ++ inbox = r.wire C ++ (q.map (Rec.wire C)).flatten := by
      simpa using h.bytes
    have hd : R.self.stream.buf ++ inbox.take n <+: r.wire C ++ (q.map (Rec.wire C)).flatten :=
      hbytes ▸ (List.prefix_append_right_inj _).mpr (List.take_prefix n inbox)
    have hstart : R.self.stream.buf <+: r.wire C :=
      List.prefix_of_prefix_length_le ((List.prefix_append _ _).trans hd) (List.prefix_append _ _)
        h.buffered.1.le
    have hexp : Expects R.self r :=
      ⟨hcipher.symm, hseqno.symm, hfits, fun hn => hpre (hcipher.trans hn), hstart, h.buffered.1, h.buffered.2⟩
    obtain ⟨st, hst, hless, hlen, hrun⟩ | ⟨st, hle, hrun⟩ := receive_prefix hf hexp hd
    · left
      refine ⟨st, _, hrun, h.logs, ?_, h.lane, hless, hlen⟩
      have hdrop : inbox.drop (inbox.take n).length = inbox.drop n := by
        rw [List.length_take]
        rcases Nat.le_total n inbox.length with hn | hn
        · rw [Nat.min_eq_left hn]
        · rw [Nat.min_eq_right hn, List.drop_length, List.drop_of_length_le hn]
      change st.buf ++ inbox.drop (inbox.take n).length = _
      rw [hdrop, hst, List.append_assoc, List.take_append_drop, h.bytes]
    · right
      have hcipher' : (R.clearOut.withStream st).self.incipher = r.cipher := hcipher.symm
      have hproc := processFramed_rec hC hcipher' hseqno.symm
      refine ⟨st, r, q, (r.wire C).length - R.self.stream.buf.length, hrun.trans ?_, ?_⟩
      · rw [run_bind, run_bind, hproc]
      obtain ⟨hty, hsome, happ, hrest⟩ | ⟨hty, m, hs', hhs, hbody, hrest⟩ := h.lane.uncons
      · exact .inl ⟨hty, hsome, happ, h.take st (hseqno ▸ hrest)⟩
      · exact .inr ⟨hty, m, hs', hhs, hbody, h.take st (hseqno ▸ hrest)⟩

end Flow

end Tincr.Sptps
