/-
# Replies from the cache

`doit` of `proxylab/proxy.c` reads a reply line by line with `Rio_readlineb`.  It
passes on the bytes that were read, counted, and collects them for the cache with
`strcat`, which stops at a NUL; `write_cache` copies with `strcpy`, and a hit sends
as many bytes as were counted.  So a NUL in the reply drops the rest of its line,
and behind the bytes collected a hit sends a NUL and what the line of the cache
held before.

`cached_reply` says when these are the bytes of the reply all the same.
-/

import CsappLabs.Proxy.Serial

namespace CsappLabs
namespace Proxy

open Lib Lib.CInt

/-- The loop of `rio_readlineb` with room for `n` bytes: the line, and what is
left of the reply. -/
def readlineb : ℕ → List UInt8 → List UInt8 × List UInt8
  | 0, rest => ([], rest)
  | _ + 1, [] => ([], [])
  | n + 1, c :: rest =>
    if c = 10 then ([c], rest) else (c :: (readlineb n rest).1, (readlineb n rest).2)

/-- The lines that `doit` reads, until `Rio_readlineb` returns `0`. -/
def readLines : ℕ → List UInt8 → List (List UInt8)
  | 0, _ => []
  | _ + 1, [] => []
  | n + 1, c :: rest =>
    let line := readlineb (MAXLINE - 1) (c :: rest)
    line.1 :: readLines n line.2

/-- The lines of a reply. -/
def readReply (r : List UInt8) : List (List UInt8) := readLines r.length r

/-- `Rio_writen(clientfd, message, n)` for every line. -/
def forwardReply (chunks : List (List UInt8)) : List UInt8 :=
  chunks.foldl (fun out message => out ++ message) []

/-- `Rio_writen(clientfd, cache.line[idx].buf, cache.line[idx].size)` -/
def sendLine (l : CacheLine) : List UInt8 := (List.range l.size.toNat).map l.buf

variable {r rest : List UInt8} {n : ℕ}

/-! ### What is collected -/

/-- The bytes of a reply without those behind a NUL in their line. -/
def plain : Bool → List UInt8 → List UInt8
  | _, [] => []
  | true, c :: rest => plain (c ≠ 10) rest
  | false, c :: rest => if c = 0 then plain true rest else c :: plain false rest

/-- A line and the rest are the stream. -/
theorem readlineb_append (n : ℕ) (r : List UInt8) : (readlineb n r).1 ++ (readlineb n r).2 = r := by
  induction n generalizing r with
  | zero => rfl
  | succ n ih =>
    cases r with
    | nil => rfl
    | cons c r =>
      rw [readlineb]
      split_ifs
      · rfl
      · exact congrArg _ (ih r)

/-- What is collected of a line, and of the reply without it. -/
theorem plain_readlineb (h : r.length ≤ n) :
    plain false r = (readlineb n r).1.takeWhile (· ≠ 0) ++ plain false (readlineb n r).2 ∧
      plain true r = plain false (readlineb n r).2 := by
  induction n generalizing r with
  | zero =>
    obtain rfl : r = [] := List.length_eq_zero_iff.1 (Nat.le_zero.1 h)
    exact ⟨rfl, rfl⟩
  | succ n ih =>
    cases r with
    | nil => exact ⟨rfl, rfl⟩
    | cons c rest =>
      obtain ⟨hfalse, htrue⟩ := ih (Nat.le_of_succ_le_succ h)
      by_cases hc : c = 10
      · subst hc
        simp [readlineb, plain]
      · simp only [readlineb, if_neg hc]
        refine ⟨?_, by simpa [plain, hc] using htrue⟩
        by_cases hz : c = 0
        · simpa [plain, hz] using htrue
        · simp [plain, hz, hfalse]

/-- The line takes something of the reply. -/
theorem length_readlineb (c : UInt8) (rest : List UInt8) :
    (readlineb (n + 1) (c :: rest)).2.length ≤ rest.length := by
  simp only [readlineb]
  split_ifs
  · exact le_rfl
  · have happ := congrArg List.length (readlineb_append n rest)
    rw [List.length_append] at happ
    exact Nat.le.intro ((Nat.add_comm ..).trans happ)

/-- **The lines** make up the reply. -/
theorem flatten_readLines (hn : r.length ≤ n) : (readLines n r).flatten = r := by
  induction n generalizing r with
  | zero =>
    obtain rfl : r = [] := List.length_eq_zero_iff.1 (Nat.le_zero.1 hn)
    rfl
  | succ n ih =>
    cases r with
    | nil => rfl
    | cons c rest =>
      have hlen : (readlineb (MAXLINE - 1) (c :: rest)).2.length ≤ n :=
        (length_readlineb (n := MAXLINE - 2) c rest).trans (Nat.le_of_succ_le_succ hn)
      rw [readLines, List.flatten_cons, ih hlen]
      exact readlineb_append ..

/-- What `strcat` collects of the lines is the plain bytes of the reply. -/
theorem plain_readLines (hn : r.length ≤ n) (hr : r.length < MAXLINE) :
    (readLines n r).flatMap (fun message => message.takeWhile (· ≠ 0)) = plain false r := by
  induction n generalizing r with
  | zero =>
    obtain rfl : r = [] := List.length_eq_zero_iff.1 (Nat.le_zero.1 hn)
    rfl
  | succ n ih =>
    cases r with
    | nil => rfl
    | cons c rest =>
      obtain ⟨hfalse, -⟩ := plain_readlineb (n := MAXLINE - 1) (Nat.le_sub_one_of_lt hr)
      have hlen : (readlineb (MAXLINE - 1) (c :: rest)).2.length ≤ rest.length :=
        length_readlineb (n := MAXLINE - 2) c rest
      rw [List.length_cons] at hn hr
      rw [readLines, List.flatMap_cons, ih (by omega) (by omega)]
      exact hfalse.symm

/-- The client gets the bytes that are read. -/
theorem forwardReply_readReply (r : List UInt8) : forwardReply (readReply r) = r := by
  have hflat := List.flatMap_eq_foldl (f := fun message : List UInt8 => message) (l := readReply r)
  rw [forwardReply, ← hflat, List.flatMap_id']
  exact flatten_readLines le_rfl

/-- What `doit` counts. -/
theorem bufferReply_readReply_size (url r : List UInt8) :
    (bufferReply url (readReply r)).size = int32 r.length := by
  rw [bufferReply_size, readReply, flatten_readLines le_rfl]

/-- What `doit` hands to `write_cache`. -/
theorem bufferReply_readReply (url : List UInt8) (hr : r.length < MAXLINE) :
    bufferReply url (readReply r) = { buf := plain false r, url := url, size := r.length } := by
  have hmax : MAXLINE = 8192 := rfl
  have hsize : (bufferReply url (readReply r)).size = r.length := by
    rw [bufferReply_readReply_size, int32_of_bounds (by omega) (by omega)]
  have hbuf : (bufferReply url (readReply r)).buf = plain false r := by
    rw [bufferReply_buf, readReply, plain_readLines le_rfl hr]
  rw [← hsize, ← hbuf]
  rfl

/-! ### What a hit sends -/

theorem plain_ne_zero {b : Bool} {c : UInt8} (h : c ∈ plain b r) : c ≠ 0 := by
  induction r generalizing b with
  | nil => exact absurd h (by cases b <;> simp [plain])
  | cons d r ih =>
    cases b with
    | true => exact ih h
    | false =>
      simp only [plain] at h
      split_ifs at h with hd
      · exact ih h
      · rcases List.mem_cons.1 h with rfl | h
        · exact hd
        · exact ih h

theorem plain_append {x y : List UInt8} (hx : 0 ∉ x) : plain false (x ++ y) = x ++ plain false y := by
  induction x with
  | nil => rfl
  | cons c x ih =>
    obtain ⟨hc, hx⟩ := not_or.1 (mt List.mem_cons.2 hx)
    rw [List.cons_append, plain, if_neg (Ne.symm hc), ih hx, List.cons_append]

theorem plain_of_not_mem (h : 0 ∉ r) : plain false r = r := by
  simpa [plain] using plain_append (y := []) h

/-- Every line that follows a newline in `y` starts with a NUL. -/
def NulLines (y : List UInt8) : Prop := ∀ a c b, y = a ++ 10 :: c :: b → c = 0

theorem nulLines_cons {c : UInt8} {y : List UInt8} :
    NulLines (c :: y) ↔ (c = 10 → ∀ d l, y = d :: l → d = 0) ∧ NulLines y := by
  constructor
  · intro h
    refine ⟨fun hc d l hy => h [] d l (by rw [hc, hy]; rfl), fun a d b hy => h (c :: a) d b ?_⟩
    rw [hy, List.cons_append]
  · rintro ⟨hc, hy⟩ a d b he
    cases a with
    | nil =>
      obtain ⟨rfl, rfl⟩ := List.cons.inj he
      exact hc rfl d b rfl
    | cons e a =>
      exact hy a d b (List.cons.inj he).2

/-- Nothing of `y` is collected. -/
theorem plain_eq_nil {b : Bool} {y : List UInt8} :
    plain b y = [] ↔ (b = false → ∀ c l, y = c :: l → c = 0) ∧ NulLines y := by
  induction y generalizing b with
  | nil => cases b <;> simp [plain, NulLines]
  | cons c y ih =>
    rw [nulLines_cons]
    cases b with
    | true => simp [plain, ih]
    | false =>
      rw [plain]
      split_ifs with hc
      · subst hc
        simp [ih]
      · simp [hc]

/-- The reply has no NUL, or nothing is collected behind the first one and the
line of the cache already held what follows it. -/
def Survives (old : ℕ → UInt8) (r : List UInt8) : Prop :=
  0 ∉ r ∨ ∃ x y, r = x ++ 0 :: y ∧ 0 ∉ x ∧ NulLines y ∧
    ∀ j c, y[j]? = some c → old (x.length + 1 + j) = c

/-- A list of the first bytes is a given one. -/
theorem range_map_eq {buf : ℕ → UInt8} :
    (List.range r.length).map buf = r ↔ ∀ k c, r[k]? = some c → buf k = c := by
  constructor
  · intro h k c hc
    obtain ⟨hk, -⟩ := List.getElem?_eq_some_iff.1 hc
    rw [← h] at hc
    simpa [hk] using hc
  · intro h
    refine List.ext_getElem (by simp) fun k hk hk' => ?_
    simpa using h k r[k] (List.getElem?_eq_getElem hk')

/-- **The bytes sent are those of the reply** exactly if these survive. -/
theorem sendLine_eq_iff {old : ℕ → UInt8} {l : CacheLine} (hbuf : l.buf = strcpy old (plain false r))
    (hsize : l.size = r.length) : sendLine l = r ↔ Survives old r := by
  rw [sendLine, hsize, Int.toNat_natCast, range_map_eq, hbuf]
  by_cases h0 : 0 ∈ r
  · obtain ⟨x, y, hr, hx⟩ := List.eq_append_cons_of_mem h0
    constructor
    · intro h
      have hplain : plain false r = x ++ plain true y := by
        rw [hr, plain_append hx, plain, if_pos rfl]
      have hnil : plain true y = [] := by
        by_contra hne
        obtain ⟨c, z, hz⟩ := List.exists_cons_of_ne_nil hne
        have hat := h x.length 0 (by simp [hr])
        rw [hplain, hz] at hat
        have hc : c = 0 := by simpa [strcpy] using hat
        exact plain_ne_zero (b := true) (r := y) (by rw [hz]; exact List.mem_cons_self) hc
      refine .inr ⟨x, y, hr, hx, (plain_eq_nil.1 hnil).2, fun j c hc => ?_⟩
      have hat := h (x.length + 1 + j) c (by
        rw [hr, List.getElem?_append_right (by omega), show x.length + 1 + j - x.length = j + 1 by omega,
          List.getElem?_cons_succ, hc])
      rw [hplain, hnil, List.append_nil, strcpy, dif_neg (by omega), if_neg (by omega)] at hat
      exact hat
    · rintro (h | ⟨x, y, hr, hx, hnul, hold⟩) k c hc
      · exact absurd h0 h
      · have hplain : plain false r = x := by
          rw [hr, plain_append hx, plain, if_pos rfl,
            plain_eq_nil.2 ⟨fun h => absurd h (by simp), hnul⟩, List.append_nil]
        rw [hplain]
        rw [hr] at hc
        rcases lt_trichotomy k x.length with hk | rfl | hk
        · rw [List.getElem?_append_left hk, List.getElem?_eq_getElem hk] at hc
          rw [strcpy, dif_pos hk]
          exact Option.some.inj hc
        · simpa [strcpy] using hc
        · rw [List.getElem?_append_right hk.le] at hc
          obtain ⟨j, rfl⟩ : ∃ j, k = x.length + 1 + j := ⟨k - (x.length + 1), by omega⟩
          rw [show x.length + 1 + j - x.length = j + 1 by omega, List.getElem?_cons_succ] at hc
          rw [strcpy, dif_neg (by omega), if_neg (by omega)]
          exact hold j c hc
  · refine iff_of_true (fun k c hc => ?_) (.inl h0)
    rw [plain_of_not_mem h0]
    obtain ⟨hk, hc⟩ := List.getElem?_eq_some_iff.1 hc
    rw [strcpy, dif_pos hk, hc]

variable {τ : Type*} [DecidableEq τ] {s s₁ s₂ : CacheState τ} {i : Fin CACHE_LINE}

/-- The step does not write line `i`. -/
def KeepsLine (i : Fin CACHE_LINE) (s : CacheState τ) : CacheStep τ → Prop
  | .run t =>
      match s.worker t with
      | .store idx _ => idx ≠ some i
      | _ => True
  | _ => True

/-- The worker is not about to write line `i`. -/
def WorkerPc.keepsLine (i : Fin CACHE_LINE) : WorkerPc → Bool
  | .store idx _ => idx ≠ some i
  | _ => true

omit [DecidableEq τ] in
theorem keepsLine_run {t : τ} : KeepsLine i s (.run t) ↔ (s.worker t).keepsLine i = true := by
  cases hx : s.worker t <;> simp [KeepsLine, WorkerPc.keepsLine, hx]

instance (i : Fin CACHE_LINE) (s : CacheState τ) : ∀ k, Decidable (KeepsLine i s k)
  | .run _ => decidable_of_iff _ keepsLine_run.symm
  | .request .. | .reply .. => isTrue trivial

/-- **A line that is not written** stays as it is. -/
theorem line_of_runBy {ks : List (CacheStep τ)}
    (h : (cacheSystem τ).runBy (KeepsLine i) s ks = some s₂) : s₂.line i = s.line i := by
  induction ks generalizing s with
  | nil => rw [← Option.some.inj h]
  | cons k ks ih =>
    rw [System.runBy, Option.ite_none_right_eq_some] at h
    obtain ⟨hk, h⟩ := h
    obtain ⟨s', hn, h⟩ := Option.bind_eq_some_iff.1 h
    rw [ih h]
    cases (moves_of_next hn).change with
    | store ht hline =>
      rw [hline]
      simp only [KeepsLine, ht] at hk
      exact writeLine_line_of_ne hk
    | other hno hline => rw [hline]

/-- What the worker is about to send from the cache. -/
def CacheState.sends (s : CacheState τ) (t : τ) : Option (List UInt8) :=
  match s.worker t with
  | .send idx _ => some (sendLine (s.line idx))
  | _ => none

/-- **A reply from the cache.**  A worker stores the reply `r` in line `i`; the line
is not written until another worker sends it for the url.  The first client got
`r`, and this one gets `r` exactly if the bytes survive the collecting. -/
theorem cached_reply {t u : τ} {url : List UInt8} {ks : List (CacheStep τ)}
    (hlen : r.length < MAXLINE) (ht : s.worker t = .store (some i) (bufferReply url (readReply r)))
    (hn : (cacheSystem τ).next s (.run t) = some s₁)
    (hr : (cacheSystem τ).runBy (KeepsLine i) s₁ ks = some s₂) (hu : s₂.worker u = .send i url) :
    forwardReply (readReply r) = r ∧ (s₂.sends u = some r ↔ Survives (s.line i).buf r) := by
  have hbuf := bufferReply_readReply url hlen
  refine ⟨forwardReply_readReply r, ?_⟩
  have hs₁ : s₁.line i = (writeLine s.toCache (some i) (bufferReply url (readReply r))).line i := by
    cases (moves_of_next hn).change with
    | store ht' hline =>
      obtain ⟨rfl, rfl⟩ := WorkerPc.store.inj (ht.symm.trans ht')
      rw [hline]
    | other hno hline => exact absurd ht (hno t _ _ rfl)
  have hline := line_of_runBy hr
  rw [hs₁, hbuf] at hline
  simp only [writeLine, Function.update_self] at hline
  simp only [CacheState.sends, hu, Option.some.injEq]
  rw [hline]
  exact sendLine_eq_iff rfl rfl

/-- Worker `0` is about to store the reply. -/
def storing (r : List UInt8) : CacheState (Fin 2) :=
  ((cacheSystem (Fin 2)).run (cacheStart (Fin 2))
    [.request w₀ [117], .run w₀, .reply w₀ (readReply r), .run w₀, .run w₀]).getD
      (cacheStart (Fin 2))

/-- Worker `0` has stored it. -/
def stored (r : List UInt8) : CacheState (Fin 2) :=
  ((cacheSystem (Fin 2)).next (storing r) (.run w₀)).getD (cacheStart (Fin 2))

/-- Worker `1` is about to send it. -/
def sending (r : List UInt8) : CacheState (Fin 2) :=
  ((cacheSystem (Fin 2)).runBy (KeepsLine 0) (stored r)
    [.run w₀, .request w₁ [117], .run w₁, .run w₁, .run w₁, .run w₁, .run w₁]).getD
      (cacheStart (Fin 2))

/-- Two lines, with a NUL at the end of the second one. -/
theorem cached_reply_twoLines :
    forwardReply (readReply [97, 10, 98, 0]) = [97, 10, 98, 0] ∧
      ((sending [97, 10, 98, 0]).sends 1 = some [97, 10, 98, 0] ↔
        Survives ((storing [97, 10, 98, 0]).line 0).buf [97, 10, 98, 0]) :=
  have hu : (sending [97, 10, 98, 0]).worker 1 = .send 0 [117] := by decide
  cached_reply (by decide) (by decide) (Option.getD_of_ne_none (by decide) _).symm
    (Option.getD_of_ne_none (by decide) _).symm hu

/-- **A NUL in the middle** of a line: the first client gets `a`, NUL, `b` and a
newline, and the second one `a` and three NULs. -/
theorem cached_reply_differs :
    (cacheSystem (Fin 2)).Reach (storing [97, 0, 98, 10]) ∧
      (storing [97, 0, 98, 10]).worker 0 =
        .store (some 0) (bufferReply [117] (readReply [97, 0, 98, 10])) ∧
      (sending [97, 0, 98, 10]).worker 1 = .send 0 [117] ∧
      forwardReply (readReply [97, 0, 98, 10]) = [97, 0, 98, 10] ∧
      (sending [97, 0, 98, 10]).sends 1 = some [97, 0, 0, 0] :=
  ⟨System.Reach.getD_run (.init rfl) _, by decide, by decide, by decide, by decide⟩

end Proxy
end CsappLabs
