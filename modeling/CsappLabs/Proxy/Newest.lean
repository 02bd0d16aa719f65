/-
# The newest objects

Calls of `write_cache` of `proxylab/proxy.c` one after the other, from
`cache_init` on.  Calls with a larger object than `MAX_OBJECT_SIZE` do nothing,
so what is there belongs to the others (`serial_accepted`), and `Filled` says
which line the next of them takes: the second loop of `write_cache` finds a line
because the ages of ten full lines are the numbers from `0` to `9`.

`latest` counts the calls, so the lines that are valid and the calls at the end
of the list correspond (`placeEquiv`).

`serialWithin` is the same run with the arrays of the lines: it ends where a `strcpy`
would write behind its array.  Calls that fit the lines never do (`serialWithin_eq_some`),
and those of `doit` fit them, since its own arrays have `MAXLINE` bytes.
-/

import CsappLabs.Proxy.Serial

namespace CsappLabs
namespace Proxy

open Lib.CInt

/-- The calls that `write_cache` does not turn away. -/
def accepted (ws : List WriteCall) : List WriteCall :=
  ws.filter fun w => decide (w.size ≤ MAX_OBJECT_SIZE)

/-- The last `CACHE_LINE` of them. -/
def newest (ws : List WriteCall) : List WriteCall :=
  (accepted ws).drop ((accepted ws).length - CACHE_LINE)

/-- `write_cache`; `none` where a `strcpy` writes behind its array. -/
def writeWithin (c : Cache) (w : WriteCall) : Option Cache :=
  if w.size > MAX_OBJECT_SIZE then some c
  else if w.Fits then some (writeLine c (chooseLine c) w) else none

/-- The calls one after the other, within the arrays. -/
def serialWithin (ws : List WriteCall) : Option Cache := ws.foldlM writeWithin cacheInit

variable {c : Cache} {w : WriteCall} {ws : List WriteCall} {i j : Fin CACHE_LINE} {n : ℕ}

theorem mem_accepted (h : w ∈ accepted ws) : w.size ≤ MAX_OBJECT_SIZE :=
  of_decide_eq_true (List.mem_filter.1 h).2

theorem length_accepted_le (ws : List WriteCall) : (accepted ws).length ≤ ws.length :=
  List.length_filter_le ..

theorem length_newest (ws : List WriteCall) :
    (newest ws).length = min (accepted ws).length CACHE_LINE := by
  rw [newest, List.length_drop]
  omega

theorem writeCache_of_lt (h : MAX_OBJECT_SIZE < w.size) : writeCache c w = c := if_pos h

/-- **The calls that are turned away** leave nothing behind. -/
theorem serial_accepted (ws : List WriteCall) : serial (accepted ws) = serial ws := by
  induction ws using List.reverseRecOn with
  | nil => rfl
  | append_singleton ws w ih =>
    rw [accepted, List.filter_append, serial, serial, List.foldl_append, List.foldl_append]
    change List.foldl writeCache (serial (accepted ws)) _ = writeCache (serial ws) w
    rw [ih]
    by_cases hw : w.size ≤ MAX_OBJECT_SIZE
    · simp [hw]
    · simp [hw, writeCache_of_lt (not_le.1 hw)]

/-- What the calls leave behind, whatever calls they are. -/
theorem filled_accepted (ws : List WriteCall) : Filled (accepted ws) (serial ws) := by
  have h := filled_serial fun w (hw : w ∈ accepted ws) => mem_accepted hw
  rwa [serial_accepted] at h

/-- A call stays within the arrays if it fits them or is turned away. -/
theorem writeWithin_eq_some {c' : Cache} : writeWithin c w = some c' ↔
    (w.size ≤ MAX_OBJECT_SIZE → w.Fits) ∧ c' = writeCache c w := by
  unfold writeWithin writeCache
  by_cases hbig : w.size > MAX_OBJECT_SIZE
  · simp only [if_pos hbig, Option.some.injEq]
    exact ⟨fun h => ⟨fun hle => absurd hle (not_le.2 hbig), h.symm⟩, fun h => h.2.symm⟩
  · rw [if_neg hbig, if_neg hbig, Option.ite_none_right_eq_some, Option.some.injEq]
    exact ⟨fun h => ⟨fun _ => h.1, h.2.symm⟩, fun h => ⟨h.1 (not_lt.1 hbig), h.2.symm⟩⟩

/-- **The calls stay within the arrays** exactly if the accepted ones fit them, and then
they do what `serial` says. -/
theorem serialWithin_eq_some : serialWithin ws = some c ↔
    (∀ w ∈ ws, w.size ≤ MAX_OBJECT_SIZE → w.Fits) ∧ c = serial ws := by
  induction ws using List.reverseRecOn generalizing c with
  | nil => simp [serialWithin, serial, eq_comm]
  | append_singleton ws w ih =>
    have hserial : serial (ws ++ [w]) = writeCache (serial ws) w := by simp [serial]
    have hrun : serialWithin (ws ++ [w]) = (serialWithin ws).bind fun c => writeWithin c w := by
      simp [serialWithin, List.foldlM_append]
    rw [hrun, hserial, Option.bind_eq_some_iff]
    simp only [ih, writeWithin_eq_some, List.forall_mem_append, List.forall_mem_singleton]
    constructor
    · rintro ⟨c', ⟨hws, rfl⟩, hw, rfl⟩
      exact ⟨⟨hws, hw⟩, rfl⟩
    · rintro ⟨⟨hws, hw⟩, rfl⟩
      exact ⟨_, ⟨hws, rfl⟩, hw, rfl⟩

/-! ### The place of a line -/

theorem line_lt (j : Fin CACHE_LINE) : (j : ℕ) < 10 := j.2

theorem latest_lt (hj : j < n) : latest n j < n := by
  unfold latest
  omega

/-- The place of the call whose object line `j` has, among the last ten. -/
def place (n j : ℕ) : ℕ := latest n j - (n - 10)

theorem place_lt (hj : (j : ℕ) < n) : place n j < min n CACHE_LINE := by
  have hlt := line_lt j
  show place n j < min n 10
  unfold place latest
  omega

theorem place_add (hj : (j : ℕ) < n) : n - 10 + place n j = latest n j := by
  have hlt := line_lt j
  unfold place latest
  omega

/-- With ten calls and more, the next one takes the line of the first of the last ten. -/
theorem place_next (hi : (i : ℕ) = n % 10) (hn : 10 ≤ n) : place n i = 0 := by
  unfold place latest
  omega

/-- **Lines and places**, with `n` calls. -/
def placeEquiv (n : ℕ) : {j : Fin CACHE_LINE // (j : ℕ) < n} ≃ Fin (min n CACHE_LINE) where
  toFun j := ⟨place n j, place_lt j.2⟩
  invFun k := ⟨⟨(n - 10 + k) % 10, Nat.mod_lt _ (by decide)⟩, by
    have hk : (k : ℕ) < min n 10 := k.2
    show (n - 10 + k) % 10 < n
    omega⟩
  left_inv j := by
    have hj := j.2
    have hlt := line_lt j.1
    refine Subtype.ext (Fin.ext ?_)
    show (n - 10 + place n j) % 10 = j
    unfold place latest
    omega
  right_inv k := by
    have hk : (k : ℕ) < min n 10 := k.2
    refine Fin.ext ?_
    show place n ((n - 10 + k) % 10) = k
    unfold place latest
    omega

/-! ### Every line -/

theorem Filled.valid_iff (h : Filled ws c) : (c.line j).valid = true ↔ (j : ℕ) < ws.length := by
  constructor
  · intro hv
    by_contra hj
    rw [h.free j (not_lt.1 hj)] at hv
    exact absurd hv (by decide)
  · exact fun hj => (h.full j hj).1

/-- The line that the next call takes, and what `latest` says about the others. -/
theorem latest_succ (hi : (i : ℕ) = n % 10) (hj : (j : ℕ) < n + 1) :
    latest (n + 1) j = if j = i then n else latest n j := by
  have hlt := line_lt j
  split_ifs with hji
  · subst hji
    unfold latest
    omega
  · have hne : (j : ℕ) ≠ i := fun h => hji (Fin.ext h)
    unfold latest
    omega

/-- **Every valid line stores its call.** -/
theorem stores_serial (h : ∀ w ∈ ws, w.size ≤ MAX_OBJECT_SIZE)
    (hw : ws[latest ws.length j]? = some w) (hj : (j : ℕ) < ws.length) :
    Stores ((serial ws).line j) w := by
  induction ws using List.reverseRecOn with
  | nil => exact absurd hj (Nat.not_lt_zero _)
  | append_singleton ws v ih =>
    have hws : ∀ w ∈ ws, w.size ≤ MAX_OBJECT_SIZE := fun w hw => h w (by simp [hw])
    obtain ⟨i, hi⟩ : ∃ i : Fin CACHE_LINE, (i : ℕ) = ws.length % 10 :=
      ⟨⟨_, Nat.mod_lt _ (by decide)⟩, rfl⟩
    have hserial : serial (ws ++ [v]) = writeLine (serial ws) (some i) v := by
      rw [serial, List.foldl_append]
      show writeCache (serial ws) v = _
      rw [writeCache, if_neg (not_lt.2 (h v (by simp))), (filled_serial hws).chooseLine hi]
    rw [List.length_append, List.length_singleton] at hw hj
    rw [latest_succ hi hj] at hw
    rw [hserial]
    by_cases hji : j = i
    · subst hji
      obtain rfl : v = w := by simpa using hw
      exact stores_writeLine _ j v
    · have hjn : (j : ℕ) < ws.length := by
        have hne : (j : ℕ) ≠ i := fun h => hji (Fin.ext h)
        have hlt := line_lt j
        omega
      rw [if_neg hji, List.getElem?_append_left (latest_lt hjn)] at hw
      rw [writeLine_line_of_ne fun h => hji (Option.some.inj h).symm]
      exact ih hws hw hjn

/-! ### The cache after any calls -/

/-- The timestamp of a valid line is the number of its call. -/
theorem timestamp_serial (h : ws.length < 2 ^ 31) (hv : ((serial ws).line j).valid = true) :
    ((serial ws).line j).timestamp = latest (accepted ws).length j + 1 := by
  have hfill := filled_accepted ws
  have hj := hfill.valid_iff.1 hv
  have hle := length_accepted_le ws
  have hlat := latest_lt hj
  rw [(hfill.full j hj).2.1]
  exact int32_of_bounds (by omega) (by omega)

/-- The call at the place of a line. -/
theorem newest_place (hj : (j : ℕ) < (accepted ws).length) :
    (newest ws)[place (accepted ws).length j]? = (accepted ws)[latest (accepted ws).length j]? := by
  rw [newest, List.getElem?_drop, ← place_add hj]

/-- **Calls one after the other.**  They stay within the arrays of the lines.  The calls
with a larger object change nothing, each other call finds a line, the timestamps of the
valid lines differ and are at most `current_time`, and the valid lines hold the last
accepted calls, one line each. -/
theorem writes_keep_newest (h : ws.length < 2 ^ 31)
    (hfit : ∀ w ∈ ws, w.size ≤ MAX_OBJECT_SIZE → w.Fits) :
    serialWithin ws = some (serial ws) ∧ (∀ p w q, ws = p ++ w :: q →
      (MAX_OBJECT_SIZE < w.size → writeCache (serial p) w = serial p) ∧
        (w.size ≤ MAX_OBJECT_SIZE → ∃ i, chooseLine (serial p) = some i)) ∧
      (∀ i j, ((serial ws).line i).valid = true → ((serial ws).line j).valid = true → i ≠ j →
        ((serial ws).line i).timestamp ≠ ((serial ws).line j).timestamp) ∧
      (∀ i, ((serial ws).line i).valid = true →
        ((serial ws).line i).timestamp ≤ (serial ws).currentTime) ∧
      (newest ws).length = min (accepted ws).length CACHE_LINE ∧
      ∃ f : {i // ((serial ws).line i).valid = true} ≃ Fin (newest ws).length,
        ∀ i, Stores ((serial ws).line i.1) (newest ws)[f i] := by
  have hfill := filled_accepted ws
  have hle := length_accepted_le ws
  refine ⟨serialWithin_eq_some.2 ⟨hfit, rfl⟩, fun p w q hp => ⟨writeCache_of_lt, fun _ => ?_⟩,
    fun i j hi hj hij => ?_, fun i hi => ?_, length_newest ws, ?_⟩
  · exact ⟨_, (filled_accepted p).chooseLine (i := ⟨_, Nat.mod_lt _ (by decide)⟩) rfl⟩
  · rw [timestamp_serial h hi, timestamp_serial h hj]
    have hi' := hfill.valid_iff.1 hi
    have hj' := hfill.valid_iff.1 hj
    have hne : (i : ℕ) ≠ j := fun h => hij (Fin.ext h)
    have hlti := line_lt i
    have hltj := line_lt j
    unfold latest
    omega
  · rw [timestamp_serial h hi, hfill.time, int32_of_bounds (by omega) (by omega)]
    have := latest_lt (hfill.valid_iff.1 hi)
    omega
  · refine ⟨(Equiv.subtypeEquivRight fun j => hfill.valid_iff).trans
      ((placeEquiv _).trans (finCongr (length_newest ws).symm)), fun i => ?_⟩
    have hj := hfill.valid_iff.1 i.2
    have hk := (place_lt hj).trans_eq (length_newest ws).symm
    have hst := stores_serial (fun w hw => mem_accepted hw)
      ((newest_place hj).symm.trans (List.getElem?_eq_getElem hk)) hj
    rwa [serial_accepted] at hst

/-- Thirteen calls, the seventh of them with an object that is too large, and too long for
the arrays. -/
def thirteenCalls : List WriteCall :=
  let call := fun k => { buf := [65], url := [UInt8.ofNat (48 + k)], size := 1 }
  (List.range 6).map call ++ [{ buf := [66], url := List.replicate 9000 66, size := 102401 }] ++
    (List.range 6).map fun k => call (k + 6)

theorem writes_keep_newest_thirteenCalls :
    (newest thirteenCalls).length = 10 ∧
    serialWithin thirteenCalls = some (serial thirteenCalls) ∧
    (∀ p w q, thirteenCalls = p ++ w :: q →
      (MAX_OBJECT_SIZE < w.size → writeCache (serial p) w = serial p) ∧
        (w.size ≤ MAX_OBJECT_SIZE → ∃ i, chooseLine (serial p) = some i)) ∧
      (∀ i j, ((serial thirteenCalls).line i).valid = true →
        ((serial thirteenCalls).line j).valid = true → i ≠ j →
        ((serial thirteenCalls).line i).timestamp ≠ ((serial thirteenCalls).line j).timestamp) ∧
      (∀ i, ((serial thirteenCalls).line i).valid = true →
        ((serial thirteenCalls).line i).timestamp ≤ (serial thirteenCalls).currentTime) ∧
      (newest thirteenCalls).length = min (accepted thirteenCalls).length CACHE_LINE ∧
      ∃ f : {i // ((serial thirteenCalls).line i).valid = true} ≃ Fin (newest thirteenCalls).length,
        ∀ i, Stores ((serial thirteenCalls).line i.1) (newest thirteenCalls)[f i] :=
  ⟨by decide, writes_keep_newest (by decide) (by decide)⟩

end Proxy
end CsappLabs
