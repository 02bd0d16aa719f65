/-
# A reply on its way through the proxy

On a miss `doit` passes the reply on as it reads it: each line that `Rio_readlineb`
returns goes out with `Rio_writen`, is appended to `buf` with `strcat`, and counted in
`cache_size`.  Both sides may move their bytes in any pieces and be interrupted.  An error
on either side ends the program (`unix_error`), and the loop of the model ends at a
`strcat` that writes behind `buf`.  So at any time the client has the beginning of the
reply.  Without errors it gets all of it exactly if the text of the reply fits `buf`, and
the call of `write_cache` that follows is then `bufferReply` (`relay_forwards`).
-/

import CsappLabs.Proxy.Limits
import CsappLabs.Proxy.Rio

namespace CsappLabs
namespace Proxy

open Lib Lib.CInt

/-- What `rio_writen` has done: whether it wrote everything, the bytes written, and how the
next calls of `write` turn out. -/
structure Writing where
  ok : Bool
  sent : List UInt8
  outcomes : List Outcome

/-- `rio_writen`; `none` where it waits for a `write` beyond the outcomes. -/
def rioWriten : List UInt8 → List Outcome → Option Writing
  | [], os => some ⟨true, [], os⟩
  | _ :: _, [] => none
  | c :: left, .intr :: os => rioWriten (c :: left) os
  | _ :: _, .error :: os => some ⟨false, [], os⟩
  | c :: left, .moves k :: os =>
    (rioWriten ((c :: left).drop (k + 1)) os).map fun w =>
      { w with sent := (c :: left).take (k + 1) ++ w.sent }

/-- How the loop of `doit` ends: at the end of the reply, in `unix_error`, or at a `strcat`
that writes behind `buf`. -/
inductive LoopEnd where
  | done
  | failed
  | overrun
  deriving DecidableEq

/-- How the loop ends, what the client has of the reply, and `buf` and `cache_size`. -/
structure Relayed where
  ended : LoopEnd
  sent : List UInt8
  buf : List UInt8
  cacheSize : ℤ

/-- The loop of `doit` that passes the reply on, for up to `fuel` lines. -/
def relay : ℕ → List UInt8 → ℤ → Rio → Fd → List Outcome → Option Relayed
  | 0, _, _, _, _, _ => none
  | fuel + 1, buf, cacheSize, rp, fd, os =>
    (rioReadlineb rp fd MAXLINE).bind fun r =>
      if r.rc < 0 then some ⟨.failed, [], buf, cacheSize⟩
      else if r.rc = 0 then some ⟨.done, [], buf, cacheSize⟩
      else
        (rioWriten r.bytes os).bind fun w =>
          if w.ok then
            if (buf ++ cstr r.bytes).length < MAXLINE then
              (relay fuel (buf ++ cstr r.bytes) (int32 (cacheSize + r.rc)) r.rio r.fd
                w.outcomes).map fun y => { y with sent := w.sent ++ y.sent }
            else some ⟨.overrun, w.sent, buf, cacheSize⟩
          else some ⟨.failed, w.sent, buf, cacheSize⟩

/-- The call of `write_cache` behind the loop. -/
def Relayed.call (y : Relayed) (url : List UInt8) : WriteCall := ⟨y.buf, url, y.cacheSize⟩

variable {rp : Rio} {fd : Fd} {left : List UInt8} {os : List Outcome} {w : Writing} {y : Relayed}
  {fuel : ℕ} {buf url : List UInt8} {k : ℤ}

/-- What a `rio_writen` of `left` can have done. -/
structure Wrote (left : List UInt8) (os : List Outcome) (w : Writing) : Prop where
  sent : w.sent <+: left
  all : w.ok = true → w.sent = left
  error : w.ok = false → .error ∈ os
  outcomes : w.outcomes <:+ os
  good_le : good os ≤ good w.outcomes + left.length

/-- **`rio_writen`** writes its bytes in order and each once; if it fails, the first of them. -/
theorem rioWriten_wrote (h : rioWriten left os = some w) : Wrote left os w := by
  induction os generalizing left w with
  | nil =>
    cases left with
    | nil =>
      obtain rfl := Option.some.inj h
      exact ⟨List.prefix_rfl, fun _ => rfl, by simp, List.suffix_rfl, Nat.le_add_right ..⟩
    | cons c left => exact absurd h (by simp [rioWriten])
  | cons o os ih =>
    have hsuffix : os <:+ o :: os := List.suffix_cons ..
    cases left with
    | nil =>
      rw [rioWriten] at h
      obtain rfl := Option.some.inj h
      exact ⟨List.prefix_rfl, fun _ => rfl, by simp, List.suffix_rfl, Nat.le_add_right ..⟩
    | cons c left =>
      cases o with
      | intr =>
        have hw := ih h
        exact ⟨hw.sent, hw.all, fun hno => List.mem_cons_of_mem _ (hw.error hno),
          hw.outcomes.trans hsuffix, hw.good_le⟩
      | error =>
        obtain rfl := Option.some.inj h
        exact ⟨List.nil_prefix, by simp, fun _ => by simp, hsuffix, Nat.le_add_right ..⟩
      | moves k =>
        rw [rioWriten] at h
        obtain ⟨w', hw', rfl⟩ := Option.map_eq_some_iff.1 h
        have hw := ih hw'
        have hgood := hw.good_le
        have hsplit := List.take_append_drop (k + 1) (c :: left)
        refine ⟨?_, fun hok => ?_, fun hno => List.mem_cons_of_mem _ (hw.error hno),
          hw.outcomes.trans hsuffix, ?_⟩
        · have hpre := (List.prefix_append_right_inj ((c :: left).take (k + 1))).2 hw.sent
          rwa [hsplit] at hpre
        · rw [hw.all hok]
          exact hsplit
        · rw [good_cons_moves, List.length_cons]
          rw [List.length_drop, List.length_cons] at hgood
          show good os + 1 ≤ good w'.outcomes + _
          omega

/-- `rio_writen` returns if as many good `write`s are to come as there are bytes. -/
theorem exists_rioWriten (hg : left.length ≤ good os) : ∃ w, rioWriten left os = some w := by
  induction os generalizing left with
  | nil =>
    obtain rfl := List.length_eq_zero_iff.1 (Nat.le_zero.1 hg)
    exact ⟨_, rfl⟩
  | cons o os ih =>
    cases left with
    | nil => exact ⟨_, by rw [rioWriten]⟩
    | cons c left =>
      cases o with
      | intr => exact ih hg
      | error => exact ⟨_, rfl⟩
      | moves k =>
        rw [good_cons_moves, List.length_cons] at hg
        obtain ⟨w, hw⟩ := @ih ((c :: left).drop (k + 1)) (by simp; omega)
        rw [rioWriten, hw]
        exact ⟨_, rfl⟩

/-! ### The lines of the reply -/

theorem readlineb_ne_nil {n : ℕ} {s : List UInt8} (hs : s ≠ []) : (readlineb (n + 1) s).1 ≠ [] := by
  obtain ⟨c, s, rfl⟩ := List.exists_cons_of_ne_nil hs
  rw [readlineb]
  split_ifs <;> simp

/-- Rounds beyond the end of the reply read nothing. -/
theorem readLines_congr {r : List UInt8} {n m : ℕ} (hn : r.length ≤ n) (hm : r.length ≤ m) :
    readLines n r = readLines m r := by
  induction n generalizing r m with
  | zero =>
    obtain rfl : r = [] := List.length_eq_zero_iff.1 (Nat.le_zero.1 hn)
    cases m <;> rfl
  | succ n ih =>
    cases r with
    | nil => cases m <;> rfl
    | cons c rest =>
      cases m with
      | zero => exact absurd hm (by simp)
      | succ m =>
        have hlen := length_readlineb (n := MAXLINE - 2) c rest
        rw [List.length_cons] at hn hm
        exact congrArg _ (ih (hlen.trans (by omega)) (hlen.trans (by omega)))

theorem readReply_of_ne_nil {r : List UInt8} (h : r ≠ []) : readReply r =
    (readlineb (MAXLINE - 1) r).1 :: readReply (readlineb (MAXLINE - 1) r).2 := by
  obtain ⟨c, rest, rfl⟩ := List.exists_cons_of_ne_nil h
  exact congrArg _ (readLines_congr (length_readlineb (n := MAXLINE - 2) c rest) le_rfl)

theorem replyText_cons (message : List UInt8) (chunks : List (List UInt8)) :
    replyText (message :: chunks) = cstr message ++ replyText chunks := List.flatMap_cons

/-! ### The loop -/

/-- What a call of `rio_readlineb` put and left. -/
theorem line_append {r : Reading} {maxlen : ℕ}
    (hbytes : r.bytes = ((ReadCall.readlineb maxlen).piece (pending rp fd)).1)
    (hp : pending r.rio r.fd = ((ReadCall.readlineb maxlen).piece (pending rp fd)).2) :
    r.bytes ++ pending r.rio r.fd = pending rp fd := by
  rw [hbytes, hp]
  exact readlineb_append _ _

/-- The line is the first one of the reply. -/
theorem readReply_pending {r : Reading} (hr : pending rp fd ≠ [])
    (hbytes : r.bytes = ((ReadCall.readlineb MAXLINE).piece (pending rp fd)).1)
    (hp : pending r.rio r.fd = ((ReadCall.readlineb MAXLINE).piece (pending rp fd)).2) :
    readReply (pending rp fd) = r.bytes :: readReply (pending r.rio r.fd) := by
  rw [readReply_of_ne_nil hr, hbytes, hp]
  rfl

/-- What the loop has done with a reply when it ends, `buf` and `k` being what it has collected
and counted before. -/
structure Relays (reply : List UInt8) (fd : Fd) (os : List Outcome) (buf : List UInt8) (k : ℤ)
    (y : Relayed) : Prop where
  sent : y.sent <+: reply
  all : y.ended = .done → y.sent = reply
  collected : y.ended = .done → y.buf = buf ++ replyText (readReply reply)
  counted : y.ended = .done → y.cacheSize = int32 (k + reply.length)
  fits : y.ended = .done → (buf ++ replyText (readReply reply)).length < MAXLINE
  failed : y.ended = .failed → .error ∈ fd.outcomes ∨ .error ∈ os
  overrun : y.ended = .overrun → MAXLINE ≤ (buf ++ replyText (readReply reply)).length

/-- **One more line** in front of what the loop does with the rest. -/
theorem Relays.cons {r : Reading} (hr : pending rp fd ≠ [])
    (hbytes : r.bytes = ((ReadCall.readlineb MAXLINE).piece (pending rp fd)).1)
    (hrc : r.rc = r.bytes.length)
    (hp : pending r.rio r.fd = ((ReadCall.readlineb MAXLINE).piece (pending rp fd)).2)
    (hfd : r.fd.outcomes <:+ fd.outcomes) (hos : w.outcomes <:+ os)
    (h : Relays (pending r.rio r.fd) r.fd w.outcomes (buf ++ cstr r.bytes) (k + r.rc) y) :
    Relays (pending rp fd) fd os buf k { y with sent := r.bytes ++ y.sent } := by
  have hline := line_append hbytes hp
  have htext : buf ++ cstr r.bytes ++ replyText (readReply (pending r.rio r.fd)) =
      buf ++ replyText (readReply (pending rp fd)) := by
    rw [readReply_pending hr hbytes hp, replyText_cons, List.append_assoc]
  have hlength := congrArg List.length hline
  rw [List.length_append] at hlength
  refine ⟨?_, fun hd => ?_, fun hd => ?_, fun hd => ?_, fun hd => ?_, fun hf => ?_, fun ho => ?_⟩
  · rw [← hline]
    exact (List.prefix_append_right_inj _).2 h.sent
  · rw [← hline]
    exact congrArg _ (h.all hd)
  · exact (h.collected hd).trans htext
  · refine (h.counted hd).trans (congrArg _ ?_)
    rw [hrc, ← hlength]
    push_cast
    rw [add_assoc]
  · rw [← htext]
    exact h.fits hd
  · exact (h.failed hf).imp (hfd.subset ·) (hos.subset ·)
  · rw [← htext]
    exact h.overrun ho

/-- **What the loop does**, by induction on the lines. -/
theorem relay_relays (hb : rp.InBounds) (hbuf : buf.length < MAXLINE)
    (h : relay fuel buf (int32 k) rp fd os = some y) : Relays (pending rp fd) fd os buf k y := by
  induction fuel generalizing rp fd os y buf k with
  | zero => exact absurd h (by simp [relay])
  | succ fuel ih =>
    rw [relay] at h
    obtain ⟨r, hr, h⟩ := Option.bind_eq_some_iff.1 h
    obtain ⟨hans, hsuffix⟩ := ReadCall.run_answers (c := .readlineb MAXLINE) hb hr
    cases hans with
    | failed hrc hp hb' herr =>
      rw [if_pos (by omega)] at h
      obtain rfl := Option.some.inj h
      exact ⟨List.nil_prefix, by simp, by simp, by simp, by simp, fun _ => .inl herr, by simp⟩
    | done hbytes hrc hp hb' hgood =>
      have hline := line_append hbytes hp
      rw [← hbytes] at hrc
      rw [if_neg (by omega)] at h
      by_cases hz : r.rc = 0
      · -- the end of the reply
        rw [if_pos hz] at h
        obtain rfl := Option.some.inj h
        have hend : pending rp fd = [] := by
          by_contra hne
          refine readlineb_ne_nil (n := MAXLINE - 2) hne (hbytes.symm.trans ?_)
          exact List.length_eq_zero_iff.1 (by omega)
        have htext : buf ++ replyText (readReply []) = buf := List.append_nil buf
        rw [hend]
        refine ⟨List.nil_prefix, fun _ => rfl, fun _ => htext.symm, fun _ => ?_, fun _ => ?_,
          by simp, by simp⟩
        · simp
        · rwa [htext]
      · have hne : pending rp fd ≠ [] := fun hnil => hz <| by
          rw [hrc, hbytes, hnil]
          rfl
        rw [if_neg hz] at h
        obtain ⟨w, hw, h⟩ := Option.bind_eq_some_iff.1 h
        have hwrote := rioWriten_wrote hw
        have hpre : w.sent <+: pending rp fd := hwrote.sent.trans ⟨_, hline⟩
        cases hok : w.ok with
        | false =>
          rw [hok, if_neg (by simp)] at h
          obtain rfl := Option.some.inj h
          refine ⟨hpre, by simp, by simp, by simp, by simp, fun _ => .inr ?_, by simp⟩
          exact hwrote.error hok
        | true =>
          rw [hok, if_pos rfl] at h
          by_cases hfits : (buf ++ cstr r.bytes).length < MAXLINE
          · rw [if_pos hfits] at h
            obtain ⟨y', hy', rfl⟩ := Option.map_eq_some_iff.1 h
            rw [int32_add] at hy'
            rw [hwrote.all hok]
            exact .cons hne hbytes hrc hp hsuffix hwrote.outcomes (ih hb' hfits hy')
          · rw [if_neg hfits] at h
            obtain rfl := Option.some.inj h
            refine ⟨hpre, by simp, by simp, by simp, by simp, by simp, fun _ => ?_⟩
            rw [readReply_pending hne hbytes hp, replyText_cons, ← List.append_assoc,
              List.length_append]
            exact (not_lt.1 hfits).trans (Nat.le_add_right ..)

/-- The loop comes to an end: a line takes at least one byte off the reply. -/
theorem exists_relay (hb : rp.InBounds) (hfuel : (pending rp fd).length < fuel)
    (hr : fd.incoming.length + (pending rp fd).length + 1 ≤ good fd.outcomes)
    (hw : (pending rp fd).length ≤ good os) : ∃ y, relay fuel buf k rp fd os = some y := by
  induction fuel generalizing rp fd os buf k with
  | zero => exact absurd hfuel (Nat.not_lt_zero _)
  | succ fuel ih =>
    obtain ⟨r, hrun⟩ := ReadCall.exists_run (c := .readlineb MAXLINE) hb
      (by omega : fd.incoming.length < _)
    have hrun' : rioReadlineb rp fd MAXLINE = some r := hrun
    rw [relay, hrun', Option.bind_some]
    by_cases hneg : r.rc < 0
    · exact ⟨_, if_pos hneg⟩
    rw [if_neg hneg]
    by_cases hz : r.rc = 0
    · exact ⟨_, if_pos hz⟩
    · rw [if_neg hz]
      cases (ReadCall.run_answers hb hrun).1 with
      | failed hrc => omega
      | done hbytes hrc hp hb' hgood =>
        have hline := congrArg List.length (line_append hbytes hp)
        rw [← hbytes] at hrc
        rw [List.length_append] at hline
        obtain ⟨w, hwrite⟩ := exists_rioWriten (by omega : r.bytes.length ≤ good os)
        have hwrote := (rioWriten_wrote hwrite).good_le
        rw [hwrite, Option.bind_some]
        split_ifs with hok hfits
        · obtain ⟨y, hy⟩ := @ih r.rio r.fd w.outcomes (buf ++ cstr r.bytes) (int32 (k + r.rc)) hb'
            (by omega) (by omega) (by omega)
          rw [hy]
          exact ⟨_, rfl⟩
        · exact ⟨_, rfl⟩
        · exact ⟨_, rfl⟩

/-- What the loop hands to `write_cache`. -/
theorem Relays.call_eq {reply : List UInt8} (h : Relays reply fd os [] 0 y) (url : List UInt8)
    (hd : y.ended = .done) : y.call url = bufferReply url (readReply reply) := by
  have hbuf := (h.collected hd).trans (bufferReply_buf_eq url (readReply reply)).symm
  have hsize : y.cacheSize = (bufferReply url (readReply reply)).size := by
    rw [h.counted hd, bufferReply_readReply_size, zero_add]
  rw [Relayed.call, hbuf, hsize]
  rfl

/-- **A reply is forwarded byte for byte**, however it is delivered and taken.  If enough
calls of `read` and `write` are not interrupted, the loop ends, and the client has the
beginning of the reply.  Where it ends well the client has all of it, and the call of
`write_cache` is that of `bufferReply` and fits a line.  Unless a call fails it ends well
exactly if the reply has fewer than `MAXLINE` bytes of text, and otherwise at a `strcat` behind
`buf`. -/
theorem relay_forwards (hb : rp.InBounds) (hfuel : (pending rp fd).length < fuel)
    (hr : fd.incoming.length + (pending rp fd).length + 1 ≤ good fd.outcomes)
    (hw : (pending rp fd).length ≤ good os) :
    ∃ y, relay fuel [] 0 rp fd os = some y ∧ y.sent <+: pending rp fd ∧
      (y.ended = .done → y.sent = pending rp fd ∧ ∀ url, url.length < MAXLINE →
        y.call url = bufferReply url (readReply (pending rp fd)) ∧ (y.call url).Fits) ∧
      (.error ∉ fd.outcomes → .error ∉ os →
        (y.ended = .done ↔ (replyText (readReply (pending rp fd))).length < MAXLINE) ∧
        (y.ended = .overrun ↔ MAXLINE ≤ (replyText (readReply (pending rp fd))).length)) := by
  obtain ⟨y, hy⟩ : ∃ y, relay fuel [] 0 rp fd os = some y := exists_relay hb hfuel hr hw
  have h : Relays (pending rp fd) fd os [] 0 y := relay_relays hb (by decide) hy
  have hfits := h.fits
  have hoverrun := h.overrun
  rw [List.nil_append] at hfits hoverrun
  refine ⟨y, hy, h.sent, fun hd => ⟨h.all hd, fun url hurl => ⟨h.call_eq url hd, ?_, hurl⟩⟩,
    fun hno hno' => ?_⟩
  · have hlen := hfits hd
    rw [← List.nil_append (replyText _), ← h.collected hd] at hlen
    have hmax : MAXLINE = 8192 := rfl
    have hobj : MAX_OBJECT_SIZE = 102400 := rfl
    show (y.buf.length : ℤ) < _
    omega
  · have hfailed : y.ended ≠ .failed := fun hf => (h.failed hf).elim hno hno'
    cases hend : y.ended with
    | done => exact ⟨iff_of_true rfl (hfits hend), iff_of_false (by simp) (not_le.2 (hfits hend))⟩
    | failed => exact absurd hend hfailed
    | overrun =>
      exact ⟨iff_of_false (by simp) (not_lt.2 (hoverrun hend)), iff_of_true rfl (hoverrun hend)⟩

/-- A reply of two lines and a half, taken by the client in pieces. -/
theorem relay_forwards_pieces :
    let rp : Rio := rioReadinitb ⟨0, 0, fun _ => 7⟩
    let fd : Fd := ⟨Scanf.bytes "HTTP/1.0 200 OK\r\n\r\n<ht",
      [.moves 6, .intr, .moves 0] ++ List.replicate 50 (.moves 1)⟩
    let os : List Outcome := [.moves 1, .intr] ++ List.replicate 30 (.moves 0)
    (relay 30 [] 0 rp fd os).map (fun y => (y.ended, y.sent, y.cacheSize)) =
      some (.done, fd.incoming, 22) ∧
    ∃ y, relay 30 [] 0 rp fd os = some y ∧ y.sent <+: pending rp fd ∧
      (y.ended = .done → y.sent = pending rp fd ∧ ∀ url, url.length < MAXLINE →
        y.call url = bufferReply url (readReply (pending rp fd)) ∧ (y.call url).Fits) ∧
      (.error ∉ fd.outcomes → .error ∉ os →
        (y.ended = .done ↔ (replyText (readReply (pending rp fd))).length < MAXLINE) ∧
        (y.ended = .overrun ↔ MAXLINE ≤ (replyText (readReply (pending rp fd))).length)) := by
  intro rp fd os
  exact ⟨by decide +kernel, relay_forwards (by decide) (by decide) (by decide) (by decide)⟩

end Proxy
end CsappLabs
