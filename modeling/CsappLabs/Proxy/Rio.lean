/-
# The robust I/O package

`proxylab/csapp.c` reads a connection through a buffer.  The system may deliver any
number of bytes in a `read`, and interrupt it; `rio_read` fills the buffer when it is
empty, and `rio_readnb` and `rio_readlineb` call it until they have what they want.

An `Fd` is a connection: the bytes that still come until the other side closes, and
how the next calls of `read` turn out.  A function that waits for a `read` beyond
these is `none`.  The bytes in the buffer and those that still come (`pending`) are one
stream, and a sequence of calls returns the pieces of it that `streamCalls` says,
however the bytes are delivered (`rio_stream`).
-/

import CsappLabs.Lib.Scanf
import CsappLabs.Proxy.Replies

namespace CsappLabs
namespace Proxy

abbrev RIO_BUFSIZE : ℕ := 8192

/-- How a call of `read` or `write` turns out: it moves up to `k + 1` bytes, it is
interrupted (`EINTR`), or it fails. -/
inductive Outcome where
  | moves (k : ℕ)
  | intr
  | error
  deriving DecidableEq

/-- A connection that is read. -/
structure Fd where
  incoming : List UInt8
  outcomes : List Outcome

/-- `rio_t` -/
structure Rio where
  cnt : ℤ
  bufptr : ℕ
  buf : ℕ → UInt8

/-- What a function returns, the bytes that it has put at `usrbuf`, and what it leaves. -/
structure Reading where
  rc : ℤ
  bytes : List UInt8
  rio : Rio
  fd : Fd

/-- `rio_readinitb` -/
def rioReadinitb (rp : Rio) : Rio := { rp with cnt := 0, bufptr := 0 }

/-- The loop of `rio_read`, which runs while `rio_cnt <= 0`: the return value where it
returns, `1` where it ends. -/
def refill (rp : Rio) (incoming : List UInt8) : List Outcome → Option Reading
  | [] => none
  | .intr :: os => refill { rp with cnt := -1 } incoming os
  | .error :: os => some ⟨-1, [], { rp with cnt := -1 }, ⟨incoming, os⟩⟩
  | .moves k :: os =>
    let got := incoming.take (min (k + 1) RIO_BUFSIZE)
    if got = [] then some ⟨0, [], { rp with cnt := 0 }, ⟨incoming, os⟩⟩
    else some ⟨1, [], ⟨got.length, 0, fun i => if i < got.length then got.getD i 0 else rp.buf i⟩,
      ⟨incoming.drop got.length, os⟩⟩

/-- The end of `rio_read`. -/
def takeBytes (rp : Rio) (fd : Fd) (n : ℕ) : Reading :=
  let cnt := if rp.cnt < n then rp.cnt.toNat else n
  ⟨cnt, (List.range cnt).map fun i => rp.buf (rp.bufptr + i),
    { rp with cnt := rp.cnt - cnt, bufptr := rp.bufptr + cnt }, fd⟩

/-- `rio_read` -/
def rioRead (rp : Rio) (fd : Fd) (n : ℕ) : Option Reading :=
  if 0 < rp.cnt then some (takeBytes rp fd n)
  else
    (refill rp fd.incoming fd.outcomes).map fun r =>
      if r.rc = 1 then takeBytes r.rio r.fd n else r

/-- The loop of `rio_readnb` with room for `nleft` bytes, for up to `fuel` rounds. -/
def readnbLoop : ℕ → ℕ → List UInt8 → Rio → Fd → Option Reading
  | 0, _, usr, rp, fd => some ⟨usr.length, usr, rp, fd⟩
  | fuel + 1, nleft, usr, rp, fd =>
    if nleft = 0 then some ⟨usr.length, usr, rp, fd⟩
    else
      (rioRead rp fd nleft).bind fun r =>
        if r.rc < 0 then some ⟨-1, usr, r.rio, r.fd⟩
        else if r.rc = 0 then some ⟨usr.length, usr, r.rio, r.fd⟩
        else readnbLoop fuel (nleft - r.rc.toNat) (usr ++ r.bytes) r.rio r.fd

/-- `rio_readnb`; a round moves at least one byte. -/
def rioReadnb (rp : Rio) (fd : Fd) (n : ℕ) : Option Reading := readnbLoop n n [] rp fd

/-- The loop of `rio_readlineb` with room for `left` more bytes and the NUL. -/
def readlinebLoop : ℕ → List UInt8 → Rio → Fd → Option Reading
  | 0, usr, rp, fd => some ⟨usr.length, usr, rp, fd⟩
  | left + 1, usr, rp, fd =>
    (rioRead rp fd 1).bind fun r =>
      if r.rc = 1 then
        if r.bytes = [10] then some ⟨(usr ++ r.bytes).length, usr ++ r.bytes, r.rio, r.fd⟩
        else readlinebLoop left (usr ++ r.bytes) r.rio r.fd
      else if r.rc = 0 then some ⟨usr.length, usr, r.rio, r.fd⟩
      else some ⟨-1, usr, r.rio, r.fd⟩

/-- `rio_readlineb` -/
def rioReadlineb (rp : Rio) (fd : Fd) (maxlen : ℕ) : Option Reading :=
  readlinebLoop (maxlen - 1) [] rp fd

/-! ### One stream -/

/-- The bytes in the buffer that were not read yet. -/
def Rio.unread (rp : Rio) : List UInt8 :=
  (List.range rp.cnt.toNat).map fun i => rp.buf (rp.bufptr + i)

/-- The bytes that the program will read. -/
def pending (rp : Rio) (fd : Fd) : List UInt8 := rp.unread ++ fd.incoming

/-- The unread bytes are in the buffer. -/
def Rio.InBounds (rp : Rio) : Prop := rp.bufptr + rp.cnt.toNat ≤ RIO_BUFSIZE

instance (rp : Rio) : Decidable rp.InBounds := inferInstanceAs (Decidable (_ ≤ _))

/-- The `read`s that are neither interrupted nor fail. -/
def good (os : List Outcome) : ℕ := os.countP fun o => o ≠ .intr ∧ o ≠ .error

variable {rp : Rio} {fd : Fd} {r : Reading} {n : ℕ} {os : List Outcome} {usr : List UInt8}

theorem unread_of_nonpos (h : rp.cnt ≤ 0) : rp.unread = [] := by
  rw [Rio.unread, Int.toNat_of_nonpos h]
  rfl

theorem takeBytes_eq (c bufptr : ℕ) (buf : ℕ → UInt8) :
    takeBytes ⟨c, bufptr, buf⟩ fd n =
      ⟨(min c n : ℕ), (List.range (min c n)).map fun i => buf (bufptr + i),
        ⟨((c - min c n : ℕ) : ℤ), bufptr + min c n, buf⟩, fd⟩ := by
  have hmin : (if (c : ℤ) < n then (c : ℤ).toNat else n) = min c n := by
    split_ifs <;> omega
  have hrest : (c : ℤ) - (min c n : ℕ) = (c - min c n : ℕ) := by omega
  simp only [takeBytes]
  rw [hmin, hrest]

/-- What a successful `rio_read` of up to `n` bytes returns of the stream `s`. -/
structure Delivers (s : List UInt8) (n : ℕ) (r : Reading) : Prop where
  pos : 0 < r.bytes.length
  le : r.bytes.length ≤ n
  rc : r.rc = r.bytes.length
  stream : s = r.bytes ++ pending r.rio r.fd
  inBounds : r.rio.InBounds

/-- Bytes taken from the buffer are the next ones. -/
theorem takeBytes_delivers (fd : Fd) (hcnt : 0 < rp.cnt) (hn : 0 < n) (hb : rp.InBounds) :
    Delivers (pending rp fd) n (takeBytes rp fd n) ∧ (takeBytes rp fd n).fd = fd := by
  obtain ⟨cnt, bufptr, buf⟩ := rp
  obtain ⟨c, rfl⟩ := Int.eq_ofNat_of_zero_le hcnt.le
  have hc : 0 < c := by simpa using hcnt
  rw [takeBytes_eq]
  refine ⟨⟨?_, ?_, ?_, ?_, ?_⟩, rfl⟩
  · simp [hc, hn]
  · simp
  · simp
  · have hsplit : List.range c = List.range (min c n + (c - min c n)) := by
      rw [Nat.add_sub_cancel' (Nat.min_le_left ..)]
    simp only [pending, Rio.unread, Int.toNat_natCast]
    rw [hsplit, List.range_add, List.map_append, List.map_map, List.append_assoc]
    simp [Function.comp_def, Nat.add_assoc]
  · simp only [Rio.InBounds, Int.toNat_natCast] at hb ⊢
    omega

/-- What the loop of `rio_read` does: it uses at most one good `read`, and it fills the
buffer, or finds the end, or fails; no byte is lost. -/
structure Refilled (incoming : List UInt8) (os : List Outcome) (r : Reading) : Prop where
  bytes : r.bytes = []
  inBounds : r.rio.InBounds
  stream : pending r.rio r.fd = incoming
  outcomes : r.fd.outcomes <:+ os
  good_le : good os ≤ good r.fd.outcomes + 1
  result : (r.rc = 1 ∧ 0 < r.rio.cnt ∧ r.fd.incoming.length < incoming.length) ∨
    (r.rc = 0 ∧ incoming = []) ∨ (r.rc = -1 ∧ .error ∈ os)

theorem good_cons_moves (k : ℕ) (os : List Outcome) : good (.moves k :: os) = good os + 1 :=
  List.countP_cons_of_pos (by simp)

/-- The bytes of an array that holds a list. -/
theorem map_getD_range (l : List UInt8) : ((List.range l.length).map fun i => l.getD i 0) = l :=
  List.ext_getElem (by simp) fun i _ h => by simp [h]

theorem refill_spec {incoming : List UInt8} (hcnt : rp.cnt ≤ 0) (hb : rp.InBounds)
    (hr : refill rp incoming os = some r) : Refilled incoming os r := by
  have hptr : rp.bufptr ≤ RIO_BUFSIZE := (Nat.le_add_right ..).trans hb
  have hempty : ∀ c : ℤ, c ≤ 0 → ({ rp with cnt := c } : Rio).InBounds := fun c hc => by
    simp only [Rio.InBounds, Int.toNat_of_nonpos hc]
    exact hptr
  have hnil : ∀ c : ℤ, c ≤ 0 → ∀ os, pending { rp with cnt := c } ⟨incoming, os⟩ = incoming :=
    fun c hc os => by
      rw [pending, unread_of_nonpos (by exact hc), List.nil_append]
  induction os generalizing rp with
  | nil => exact absurd hr (by simp [refill])
  | cons o os ih =>
    have hsuffix : os <:+ o :: os := List.suffix_cons ..
    cases o with
    | intr =>
      have h := @ih { rp with cnt := -1 } (by simp) (hempty _ (by simp)) hr hptr hempty hnil
      refine { h with outcomes := h.outcomes.trans hsuffix, result := ?_ }
      exact h.result.imp_right fun h => h.imp_right fun h => ⟨h.1, List.mem_cons_of_mem _ h.2⟩
    | error =>
      obtain rfl := Option.some.inj hr
      exact ⟨rfl, hempty _ (by simp), hnil _ (by simp) _, hsuffix, Nat.le_succ _,
        .inr (.inr ⟨rfl, by simp⟩)⟩
    | moves k =>
      rw [refill] at hr
      generalize hgot : incoming.take (min (k + 1) RIO_BUFSIZE) = got at hr
      have htake : got.length ≤ RIO_BUFSIZE := by
        rw [← hgot, List.length_take]
        omega
      split_ifs at hr with hnot
      · obtain rfl := Option.some.inj hr
        have hend : incoming = [] := by
          rcases List.take_eq_nil_iff.1 (hgot.trans hnot) with h | h
          · exact absurd h (by show min (k + 1) 8192 ≠ 0; omega)
          · exact h
        exact ⟨rfl, hempty _ le_rfl, hnil _ le_rfl _, hsuffix, by rw [good_cons_moves],
          .inr (.inl ⟨rfl, hend⟩)⟩
      · obtain rfl := Option.some.inj hr
        have hpos := List.length_pos_iff.2 hnot
        have hpre : got <+: incoming := hgot ▸ List.take_prefix ..
        have hle := hpre.length_le
        refine ⟨rfl, by simpa [Rio.InBounds] using htake, ?_, hsuffix, by rw [good_cons_moves],
          .inl ⟨rfl, by simpa using hpos, by rw [List.length_drop]; omega⟩⟩
        -- the buffer now holds what was read
        have hunread : (List.range got.length).map
            (fun i => if i < got.length then got.getD i 0 else rp.buf i) = got := by
          refine Eq.trans (List.map_congr_left fun i hi => ?_) (map_getD_range got)
          rw [if_pos (List.mem_range.1 hi)]
        simp only [pending, Rio.unread, Int.toNat_natCast, Nat.zero_add]
        rw [hunread]
        exact List.prefix_iff_eq_append.1 hpre

/-- **`rio_read`.**  It delivers bytes, or finds the end, or fails; a `rio_read` that fails
loses nothing.  A good `read` brings a byte, unless the end is reached. -/
inductive Read (s : List UInt8) (n : ℕ) (fd : Fd) (r : Reading) : Prop
  | bytes : Delivers s n r →
      good fd.outcomes + r.fd.incoming.length ≤ good r.fd.outcomes + fd.incoming.length →
      Read s n fd r
  | ended : r.rc = 0 → s = [] → pending r.rio r.fd = [] → r.rio.InBounds →
      good fd.outcomes ≤ good r.fd.outcomes + 1 → Read s n fd r
  | failed : r.rc = -1 → pending r.rio r.fd = s → r.rio.InBounds → .error ∈ fd.outcomes →
      Read s n fd r

theorem rioRead_spec (hn : 0 < n) (hb : rp.InBounds) (hr : rioRead rp fd n = some r) :
    Read (pending rp fd) n fd r ∧ r.fd.outcomes <:+ fd.outcomes := by
  unfold rioRead at hr
  split_ifs at hr with hcnt
  · obtain rfl := Option.some.inj hr
    obtain ⟨hd, hfd⟩ := takeBytes_delivers fd hcnt hn hb
    exact ⟨.bytes hd (by rw [hfd]), by rw [hfd]⟩
  · obtain ⟨r₁, hr₁, rfl⟩ := Option.map_eq_some_iff.1 hr
    have hf := refill_spec (not_lt.1 hcnt) hb hr₁
    have hs : pending rp fd = fd.incoming := by
      rw [pending, unread_of_nonpos (not_lt.1 hcnt), List.nil_append]
    rcases hf.result with ⟨hrc, hpos, hless⟩ | ⟨hrc, hend⟩ | ⟨hrc, herr⟩
    · rw [if_pos hrc]
      obtain ⟨hd, hfd⟩ := takeBytes_delivers r₁.fd hpos hn hf.inBounds
      have hgood := hf.good_le
      rw [hf.stream] at hd
      rw [hs]
      exact ⟨.bytes hd (by rw [hfd]; omega), by rw [hfd]; exact hf.outcomes⟩
    · rw [if_neg (by omega), hs]
      exact ⟨.ended hrc hend (hf.stream.trans hend) hf.inBounds hf.good_le, hf.outcomes⟩
    · rw [if_neg (by omega), hs]
      exact ⟨.failed hrc hf.stream hf.inBounds herr, hf.outcomes⟩

/-- A good `read` to come is enough for `rio_read` to return. -/
theorem exists_rioRead (rp : Rio) (n : ℕ) (hg : 0 < good fd.outcomes) :
    ∃ r, rioRead rp fd n = some r := by
  unfold rioRead
  split_ifs with hcnt
  · exact ⟨_, rfl⟩
  · have hrefill : ∀ os : List Outcome, 0 < good os → ∀ rp : Rio,
        ∃ r, refill rp fd.incoming os = some r := by
      intro os
      induction os with
      | nil => exact fun h => absurd h (by simp [good])
      | cons o os ih =>
        intro h rp
        cases o with
        | intr => exact ih h _
        | error => exact ⟨_, rfl⟩
        | moves k =>
          rw [refill]
          split_ifs <;> exact ⟨_, rfl⟩
    obtain ⟨r, hr⟩ := hrefill fd.outcomes hg rp
    rw [hr]
    exact ⟨_, rfl⟩

/-- What a call that has put `usr` already may answer, where `want` is what it should put
and `rest` what should be left of the stream: that, or a failure, where the bytes put so far
and the pending ones make up the stream. -/
inductive Answers (usr s want rest : List UInt8) (fd : Fd) (r : Reading) : Prop
  | done : r.bytes = want → r.rc = want.length → pending r.rio r.fd = rest → r.rio.InBounds →
      good fd.outcomes + r.fd.incoming.length ≤ good r.fd.outcomes + fd.incoming.length + 1 →
      Answers usr s want rest fd r
  | failed : r.rc = -1 → usr ++ s = r.bytes ++ pending r.rio r.fd → r.rio.InBounds →
      .error ∈ fd.outcomes → Answers usr s want rest fd r

/-- A round of a loop, and the rest of the loop. -/
theorem Answers.of_round {usr usr' s s' want rest : List UInt8} {fd' : Fd}
    (h : Answers usr' s' want rest fd' r) (hs : usr ++ s = usr' ++ s')
    (hsuffix : fd'.outcomes <:+ fd.outcomes)
    (hgood : good fd.outcomes + fd'.incoming.length ≤ good fd'.outcomes + fd.incoming.length) :
    Answers usr s want rest fd r := by
  cases h with
  | done hbytes hrc hp hb hg => exact .done hbytes hrc hp hb (by omega)
  | failed hrc hp hb herr => exact .failed hrc (hs.trans hp) hb (hsuffix.subset herr)

/-- A loop that stops before the next round. -/
theorem Answers.stop (fd : Fd) (hb : rp.InBounds) (s : List UInt8) :
    Answers usr s usr (pending rp fd) fd ⟨usr.length, usr, rp, fd⟩ :=
  .done rfl rfl rfl hb (Nat.le_succ _)

/-- **`rio_readnb`** answers with the next `n` bytes, or all there are. -/
theorem readnbLoop_answers {fuel : ℕ} (hfuel : n ≤ fuel) (hb : rp.InBounds)
    (hr : readnbLoop fuel n usr rp fd = some r) :
    Answers usr (pending rp fd) (usr ++ (pending rp fd).take n) ((pending rp fd).drop n) fd r ∧
      r.fd.outcomes <:+ fd.outcomes := by
  induction fuel generalizing n usr rp fd with
  | zero =>
    obtain rfl := Nat.le_zero.1 hfuel
    obtain rfl := Option.some.inj hr
    rw [List.take_zero, List.append_nil, List.drop_zero]
    exact ⟨.stop _ hb _, List.suffix_rfl⟩
  | succ fuel ih =>
    rw [readnbLoop] at hr
    split_ifs at hr with hn
    · subst hn
      obtain rfl := Option.some.inj hr
      rw [List.take_zero, List.append_nil, List.drop_zero]
      exact ⟨.stop _ hb _, List.suffix_rfl⟩
    · obtain ⟨r₁, hr₁, hr⟩ := Option.bind_eq_some_iff.1 hr
      obtain ⟨hread, hsuffix⟩ := rioRead_spec (Nat.pos_of_ne_zero hn) hb hr₁
      cases hread with
      | bytes hd hgood =>
        have hpos := hd.pos
        have hle := hd.le
        have hrc := hd.rc
        rw [if_neg (by omega), if_neg (by omega), hrc, Int.toNat_natCast] at hr
        obtain ⟨hans, hsuffix'⟩ := ih (by omega) hd.inBounds hr
        rw [hd.stream, List.take_append, List.drop_append, List.take_of_length_le hle,
          List.drop_eq_nil_of_le hle, List.nil_append, ← List.append_assoc]
        exact ⟨hans.of_round (by rw [List.append_assoc]) hsuffix hgood, hsuffix'.trans hsuffix⟩
      | ended hrc hs hp hb' hgood =>
        rw [if_neg (by omega), if_pos hrc] at hr
        obtain rfl := Option.some.inj hr
        rw [hs, List.take_nil, List.append_nil, List.drop_nil]
        rw [pending, List.append_eq_nil_iff] at hs
        refine ⟨.done rfl rfl hp hb' ?_, hsuffix⟩
        rw [pending, List.append_eq_nil_iff] at hp
        simp only [hs.2, hp.2]
        omega
      | failed hrc hp hb' herr =>
        rw [if_pos (by omega)] at hr
        obtain rfl := Option.some.inj hr
        exact ⟨.failed rfl (by rw [hp]) hb' herr, hsuffix⟩

/-- **`rio_readlineb`** answers with the next line, or as much of it as fits. -/
theorem readlinebLoop_answers {left : ℕ} (hb : rp.InBounds)
    (hr : readlinebLoop left usr rp fd = some r) :
    Answers usr (pending rp fd) (usr ++ (readlineb left (pending rp fd)).1)
      (readlineb left (pending rp fd)).2 fd r ∧ r.fd.outcomes <:+ fd.outcomes := by
  induction left generalizing usr rp fd with
  | zero =>
    obtain rfl := Option.some.inj hr
    rw [readlineb, List.append_nil]
    exact ⟨.stop _ hb _, List.suffix_rfl⟩
  | succ left ih =>
    rw [readlinebLoop] at hr
    obtain ⟨r₁, hr₁, hr⟩ := Option.bind_eq_some_iff.1 hr
    obtain ⟨hread, hsuffix⟩ := rioRead_spec Nat.one_pos hb hr₁
    cases hread with
    | bytes hd hgood =>
      have hpos := hd.pos
      have hle := hd.le
      obtain ⟨c, hc⟩ := List.length_eq_one_iff.1 (by omega : r₁.bytes.length = 1)
      have hrc : r₁.rc = 1 := by rw [hd.rc, hc]; rfl
      have hstream : pending rp fd = c :: pending r₁.rio r₁.fd := by rw [hd.stream, hc]; rfl
      rw [if_pos hrc, hc] at hr
      rw [hstream, readlineb]
      by_cases hnl : c = 10
      · subst hnl
        rw [if_pos rfl] at hr
        rw [if_pos rfl]
        obtain rfl := Option.some.inj hr
        exact ⟨(Answers.stop r₁.fd hd.inBounds (pending r₁.rio r₁.fd)).of_round
          (by simp) hsuffix hgood, hsuffix⟩
      · rw [if_neg (by simpa using hnl)] at hr
        rw [if_neg hnl]
        obtain ⟨hans, hsuffix'⟩ := ih hd.inBounds hr
        rw [List.append_assoc, List.singleton_append] at hans
        exact ⟨hans.of_round (by simp) hsuffix hgood, hsuffix'.trans hsuffix⟩
    | ended hrc hs hp hb' hgood =>
      rw [if_neg (by omega), if_pos hrc] at hr
      obtain rfl := Option.some.inj hr
      rw [hs, readlineb, List.append_nil]
      rw [pending, List.append_eq_nil_iff] at hs
      refine ⟨.done rfl rfl hp hb' ?_, hsuffix⟩
      rw [pending, List.append_eq_nil_iff] at hp
      simp only [hs.2, hp.2]
      omega
    | failed hrc hp hb' herr =>
      rw [if_neg (by omega), if_neg (by omega)] at hr
      obtain rfl := Option.some.inj hr
      exact ⟨.failed rfl (by rw [hp]) hb' herr, hsuffix⟩

/-! ### Sequences of calls -/

/-- A call of the package. -/
inductive ReadCall where
  | readnb (n : ℕ)
  | readlineb (maxlen : ℕ)
  deriving DecidableEq

namespace ReadCall

/-- The call. -/
def run (rp : Rio) (fd : Fd) : ReadCall → Option Reading
  | .readnb n => rioReadnb rp fd n
  | .readlineb maxlen => rioReadlineb rp fd maxlen

/-- The piece of the stream that the call is about, and the rest. -/
def piece (s : List UInt8) : ReadCall → List UInt8 × List UInt8
  | .readnb n => (s.take n, s.drop n)
  | .readlineb maxlen => Proxy.readlineb (maxlen - 1) s

end ReadCall

/-- The calls one after the other, up to the first that fails: its wrapper ends the program. -/
def readCalls : List ReadCall → Rio → Fd → Option (List Reading)
  | [], _, _ => some []
  | c :: cs, rp, fd =>
    (c.run rp fd).bind fun r =>
      if r.rc < 0 then some [r] else (readCalls cs r.rio r.fd).map (r :: ·)

/-- The answers are the pieces of the stream; one that failed has a part of the stream, and
the rest of it is pending. -/
inductive Answered : List ReadCall → List UInt8 → List Reading → Prop
  | nil {s : List UInt8} : Answered [] s []
  | done {c : ReadCall} {cs : List ReadCall} {s : List UInt8} {r : Reading} {rs : List Reading} :
    r.bytes = (c.piece s).1 → r.rc = r.bytes.length → Answered cs (c.piece s).2 rs →
      Answered (c :: cs) s (r :: rs)
  | failed {c : ReadCall} {cs : List ReadCall} {s : List UInt8} {r : Reading} :
    r.rc = -1 → s = r.bytes ++ pending r.rio r.fd → Answered (c :: cs) s [r]

variable {c : ReadCall} {cs : List ReadCall} {rs : List Reading}

theorem ReadCall.run_answers (hb : rp.InBounds) (hr : c.run rp fd = some r) :
    Answers [] (pending rp fd) (c.piece (pending rp fd)).1 (c.piece (pending rp fd)).2 fd r ∧
      r.fd.outcomes <:+ fd.outcomes := by
  cases c with
  | readnb n => exact readnbLoop_answers le_rfl hb hr
  | readlineb maxlen => exact readlinebLoop_answers hb hr

/-- A loop returns if there are more good `read`s to come than bytes. -/
theorem exists_readnbLoop {fuel : ℕ} (hb : rp.InBounds)
    (hg : fd.incoming.length < good fd.outcomes) : ∃ r, readnbLoop fuel n usr rp fd = some r := by
  induction fuel generalizing n usr rp fd with
  | zero => exact ⟨_, rfl⟩
  | succ fuel ih =>
    rw [readnbLoop]
    split_ifs with hn
    · exact ⟨_, rfl⟩
    · obtain ⟨r₁, hr₁⟩ := exists_rioRead rp n (Nat.zero_lt_of_lt hg)
      rw [hr₁, Option.bind_some]
      split_ifs with hneg hz
      · exact ⟨_, rfl⟩
      · exact ⟨_, rfl⟩
      · cases (rioRead_spec (Nat.pos_of_ne_zero hn) hb hr₁).1 with
        | bytes hd hgood => exact ih hd.inBounds (by omega)
        | ended hrc => exact absurd hrc hz
        | failed hrc => omega

theorem exists_readlinebLoop {left : ℕ} (hb : rp.InBounds)
    (hg : fd.incoming.length < good fd.outcomes) : ∃ r, readlinebLoop left usr rp fd = some r := by
  induction left generalizing usr rp fd with
  | zero => exact ⟨_, rfl⟩
  | succ left ih =>
    obtain ⟨r₁, hr₁⟩ := exists_rioRead rp 1 (Nat.zero_lt_of_lt hg)
    rw [readlinebLoop, hr₁, Option.bind_some]
    split_ifs with hone hnl hz
    · exact ⟨_, rfl⟩
    · cases (rioRead_spec Nat.one_pos hb hr₁).1 with
      | bytes hd hgood => exact ih hd.inBounds (by omega)
      | ended hrc => omega
      | failed hrc => omega
    · exact ⟨_, rfl⟩
    · exact ⟨_, rfl⟩

theorem ReadCall.exists_run (hb : rp.InBounds) (hg : fd.incoming.length < good fd.outcomes) :
    ∃ r, c.run rp fd = some r := by
  cases c with
  | readnb n => exact exists_readnbLoop hb hg
  | readlineb maxlen => exact exists_readlinebLoop hb hg

/-- **Buffered reading is reading the stream.**  However the bytes are delivered, if enough
`read`s are not interrupted, any sequence of calls returns; the answers are the pieces of the
stream; and if no `read` fails, no call does. -/
theorem rio_stream (hb : rp.InBounds)
    (hg : fd.incoming.length + cs.length ≤ good fd.outcomes) :
    ∃ rs, readCalls cs rp fd = some rs ∧ Answered cs (pending rp fd) rs ∧
      (.error ∉ fd.outcomes → ∀ r ∈ rs, 0 ≤ r.rc) := by
  induction cs generalizing rp fd with
  | nil => exact ⟨[], rfl, .nil, by simp⟩
  | cons c cs ih =>
    rw [List.length_cons] at hg
    obtain ⟨r, hr⟩ := ReadCall.exists_run (c := c) hb (by omega : fd.incoming.length < _)
    obtain ⟨hans, hsuffix⟩ := ReadCall.run_answers hb hr
    rw [readCalls, hr, Option.bind_some]
    cases hans with
    | done hbytes hrc hp hb' hgood =>
      obtain ⟨rs, hrs, hall, hnonneg⟩ := @ih r.rio r.fd hb' (by omega)
      rw [if_neg (by omega), hrs]
      refine ⟨r :: rs, rfl, .done hbytes (hbytes ▸ hrc) (hp ▸ hall), fun hno => ?_⟩
      exact List.forall_mem_cons.2 ⟨by omega, hnonneg fun h => hno (hsuffix.subset h)⟩
    | failed hrc hp hb' herr =>
      rw [if_pos (by omega)]
      exact ⟨[r], rfl, .failed hrc hp, fun hno => absurd herr hno⟩

/-- A request that comes in pieces, with interrupts. -/
theorem rio_stream_pieces :
    let rp : Rio := rioReadinitb ⟨3, 5, fun _ => 7⟩
    let fd : Fd := ⟨Lib.Scanf.bytes "GET / HTTP/1.0\r\n\r\nabc",
      [.moves 4, .intr, .moves 0, .moves 30] ++ List.replicate 25 (.moves 0)⟩
    let cs : List ReadCall := [.readlineb 8192, .readlineb 8192, .readnb 10, .readlineb 8192]
    (readCalls cs rp fd).map (·.map Reading.bytes) =
        some (["GET / HTTP/1.0\r\n", "\r\n", "abc", ""].map Lib.Scanf.bytes) ∧
      ∃ rs, readCalls cs rp fd = some rs ∧ Answered cs (pending rp fd) rs ∧
        (.error ∉ fd.outcomes → ∀ r ∈ rs, 0 ≤ r.rc) := by
  intro rp fd cs
  exact ⟨by decide +kernel, rio_stream (by decide) (by decide)⟩

end Proxy
end CsappLabs
