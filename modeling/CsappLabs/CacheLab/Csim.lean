/-
# The cache simulator

`access_cache` and the reading loop of `cachelab/csim.c`.  The array `lines` of a
set is a list; the first loop of `access_cache` is `firstLoop` and the second is
`secondLoop`, each by recursion on the lines it has still to visit.  An index
`-1` of the victim is `none`, and an access that would write `lines[-1]` has no
result.

A shift takes its count modulo the width of what it shifts, as the machine does: 32
bits for the `int`s `S = 1 << s` and `(1 << s) - 1`, 64 for an address.  So `s` and `b`
mean what they say where `s < 32` and `s + b < 64` (`Params.Defined`).  A tag is
reduced to the 32 bits of `unsigned`.  The counters are integers without bound.
`access_cache` appends a text to `access_log`; here it is returned.
-/

import CsappLabs.Lib.CInt

namespace CsappLabs
namespace CacheLab

open Lib Lib.CInt

/-- A cache line. -/
structure Line where
  valid : Bool
  tag : ℕ
  lruCounter : ℤ
  deriving DecidableEq

/-- The command line arguments: for `2^s` sets of `E` lines of `2^b` bytes. -/
structure Params where
  s : ℕ
  E : ℕ
  b : ℕ

/-- The global variables. -/
structure Sim where
  sets : ℕ → List Line
  hitCount : ℕ
  missCount : ℕ
  evictionCount : ℕ

/-- `address >> (s + b)` -/
def Params.tag (p : Params) (address : ℕ) : ℕ := u32 (address / 2 ^ ((p.s + p.b) % 64))

/-- `S`, which is `1 << s` as an `unsigned`. -/
def Params.S (p : Params) : ℕ := 2 ^ (p.s % 32)

/-- `(1 << s) - 1` of `int`s, as an `unsigned long`. -/
def Params.mask (p : Params) : ℕ := (int32 (int32 (2 ^ (p.s % 32)) - 1) % 2 ^ 64).toNat

/-- `address >> b & ((1 << s) - 1)` -/
def Params.sIndex (p : Params) (address : ℕ) : ℕ := address / 2 ^ (p.b % 64) &&& p.mask

/-- The shifts by `s`, `b` and `s + b` move as many bits as they say. -/
def Params.Defined (p : Params) : Prop := p.s < 32 ∧ p.s + p.b < 64

instance (p : Params) : Decidable p.Defined := inferInstanceAs (Decidable (_ ∧ _))

/-- How the first loop ends. -/
inductive Outcome where
  | hit
  | cold
  /-- no line matched and none was invalid: `need_evict` -/
  | full
  deriving DecidableEq

/-- The first loop: a match, or a cold start. -/
def firstLoop (tag : ℕ) : List Line → Outcome × List Line
  | [] => (.full, [])
  | l :: ls =>
    if l.valid then
      if l.tag = tag then (.hit, { l with lruCounter := 0 } :: ls)
      else ((firstLoop tag ls).1, l :: (firstLoop tag ls).2)
    else (.cold, { valid := true, tag := tag, lruCounter := 0 } :: ls)

/-- The second loop, from line `i` on: the first line with the biggest counter,
and the lines with `1` added to their counters. -/
def secondLoop (i : ℕ) (evictionIndex : Option ℕ) (maxCounter : ℤ) :
    List Line → Option ℕ × List Line
  | [] => (evictionIndex, [])
  | l :: ls =>
    let r :=
      if maxCounter < l.lruCounter then secondLoop (i + 1) (some i) l.lruCounter ls
      else secondLoop (i + 1) evictionIndex maxCounter ls
    (r.1, { l with lruCounter := l.lruCounter + 1 } :: r.2)

/-- The lines of the set after an access, and how the first loop ended. -/
def accessSet (tag : ℕ) (lines : List Line) : Outcome × Option (List Line) :=
  let first := firstLoop tag lines
  let second := secondLoop 0 none (-1) first.2
  match first.1 with
  | .full =>
      (.full, second.1.map fun evictionIndex =>
        second.2.set evictionIndex { valid := true, tag := tag, lruCounter := 0 })
  | outcome => (outcome, some second.2)

/-- The counts after an access. -/
def Sim.count (sim : Sim) : Outcome → Sim
  | .hit => { sim with hitCount := sim.hitCount + 1 }
  | .cold => { sim with missCount := sim.missCount + 1 }
  | .full =>
      { sim with missCount := sim.missCount + 1, evictionCount := sim.evictionCount + 1 }

/-- The text appended to `access_log`. -/
def Outcome.log : Outcome → String
  | .hit => "hit "
  | .cold => "miss "
  | .full => "miss eviction "

/-- `access_cache`, with the text it appends to `access_log`. -/
def accessCache (p : Params) (sim : Sim) (address : ℕ) : Option (Sim × String) :=
  let sIndex := p.sIndex address
  let r := accessSet (p.tag address) (sim.sets sIndex)
  r.2.map fun lines =>
    ({ sim with sets := Function.update sim.sets sIndex lines }.count r.1, r.1.log)

/-- The values that one `fscanf` leaves. -/
structure Record where
  accessType : Char
  address : ℕ

/-- The accesses that `main` makes for a record. -/
def Record.accesses (r : Record) : List ℕ :=
  if r.accessType = 'L' then [r.address]
  else if r.accessType = 'M' then [r.address, r.address]
  else if r.accessType = 'S' then [r.address]
  else []

/-- Accesses one after the other, with the texts appended. -/
def accessAll (p : Params) : Sim → List ℕ → Option (Sim × String)
  | sim, [] => some (sim, "")
  | sim, a :: as => do
    let (sim, log) ← accessCache p sim a
    let (sim, logs) ← accessAll p sim as
    return (sim, log ++ logs)

/-- The reading loop of `main`, with `access_log` after each record. -/
def readLoop (p : Params) : Sim → List Record → Option (Sim × List String)
  | sim, [] => some (sim, [])
  | sim, r :: rs => do
    let (sim, accessLog) ← accessAll p sim r.accesses
    let (sim, logs) ← readLoop p sim rs
    return (sim, accessLog :: logs)

/-- All lines invalid, with any tags and counters. -/
structure Blank (p : Params) (sim : Sim) : Prop where
  length : ∀ k, (sim.sets k).length = p.E
  invalid : ∀ k, ∀ l ∈ sim.sets k, l.valid = false
  counts : sim.hitCount = 0 ∧ sim.missCount = 0 ∧ sim.evictionCount = 0

/-- All lines invalid with counter `0`. -/
structure Fresh (p : Params) (sim : Sim) : Prop where
  length : ∀ k, (sim.sets k).length = p.E
  invalid : ∀ k, ∀ l ∈ sim.sets k, l.valid = false ∧ l.lruCounter = 0
  counts : sim.hitCount = 0 ∧ sim.missCount = 0 ∧ sim.evictionCount = 0

/-! ### The index of a set -/

theorem Params.S_pos (p : Params) : 0 < p.S := Nat.two_pow_pos _

/-- The mask has as many bits as `S` says, also for `s = 31`, where `1 << s` is negative. -/
theorem Params.mask_eq (p : Params) : p.mask = p.S - 1 := by
  have hlt : p.s % 32 < 32 := Nat.mod_lt _ (by norm_num)
  have hpow : (2 : ℤ) ^ (p.s % 32) = (2 ^ (p.s % 32) : ℕ) := by push_cast; rfl
  have hpos := p.S_pos
  have hle : p.S ≤ 2 ^ 31 := Nat.pow_le_pow_right (by norm_num) (by omega)
  unfold Params.mask
  rw [hpow]
  change (int32 (int32 (p.S : ℤ) - 1) % 2 ^ 64).toNat = _
  unfold int32
  omega

theorem Params.sIndex_eq (p : Params) (address : ℕ) :
    p.sIndex address = address / 2 ^ (p.b % 64) % p.S := by
  rw [Params.sIndex, Params.mask_eq, Params.S, Nat.and_two_pow_sub_one_eq_mod]

theorem Params.sIndex_lt (p : Params) (address : ℕ) : p.sIndex address < p.S := by
  rw [Params.sIndex_eq]
  exact Nat.mod_lt _ p.S_pos

namespace Params.Defined

variable {p : Params}

theorem S_eq (h : p.Defined) : p.S = 2 ^ p.s := by rw [Params.S, Nat.mod_eq_of_lt h.1]

theorem sIndex_eq (h : p.Defined) (address : ℕ) :
    p.sIndex address = address / 2 ^ p.b % 2 ^ p.s := by
  have hb : p.b < 64 := (Nat.le_add_left ..).trans_lt h.2
  rw [Params.sIndex_eq, h.S_eq, Nat.mod_eq_of_lt hb]

theorem tag_eq (h : p.Defined) (address : ℕ) : p.tag address = u32 (address / 2 ^ (p.s + p.b)) := by
  rw [Params.tag, Nat.mod_eq_of_lt h.2]

end Params.Defined

end CacheLab
end CsappLabs
