/-
# Reading a trace

The reading loop of `main` in `cachelab/csim.c` runs as long as
`fscanf(fp, " %c %lx,%d", …)` converts anything.  Where it converts the letter only,
`address` keeps the value of the item before, and where no decimal number follows the
address, the item is taken like any other.

So such items make accesses if their letter is one of a record
(`recorded_iff`).
-/

import CsappLabs.Lib.Scanf
import CsappLabs.CacheLab.Counters

namespace CsappLabs
namespace CacheLab

open Lib Lib.Scanf

/-- What one `fscanf` converts. -/
inductive Item where
  | letter (accessType : UInt8)
  | address (accessType : UInt8) (address : ℕ)
  | full (accessType : UInt8) (address : ℕ) (size : ℤ)
  deriving DecidableEq

/-- `fscanf(fp, " %c %lx,%d", …)`: what it converts and the text not taken, `none`
where it returns `EOF`. -/
def fscanf (text : List UInt8) : Option (Item × List UInt8) :=
  match skipSpace text with
  | [] => none
  | c :: text =>
    match integer 16 text with
    | (none, text) => some (.letter c, text)
    | (some a, []) => some (.address c (toULong a), [])
    | (some a, comma :: text) =>
      if comma = 44 then
        match integer 10 text with
        | (none, text) => some (.address c (toULong a), text)
        | (some n, text) => some (.full c (toULong a) (toInt n), text)
      else some (.address c (toULong a), comma :: text)

/-- What the calls of `fscanf` convert, for as many as `n` calls. -/
def scan : ℕ → List UInt8 → List Item
  | 0, _ => []
  | n + 1, text =>
    match fscanf text with
    | none => []
    | some (item, text) => item :: scan n text

/-- What the calls of `fscanf` convert up to the end of the text. -/
def items (text : List UInt8) : List Item := scan text.length text

/-- The values that a call leaves, where `address` was the value before. -/
def Item.leaves (address : ℕ) : Item → Record
  | .letter c => ⟨Char.ofUInt8 c, address⟩
  | .address c a => ⟨Char.ofUInt8 c, a⟩
  | .full c a _ => ⟨Char.ofUInt8 c, a⟩

/-- The values that the calls leave, one after the other. -/
def records : ℕ → List Item → List Record
  | _, [] => []
  | address, item :: is => item.leaves address :: records (item.leaves address).address is

/-- The reading loop of `main`; `address` is not initialised. -/
def readTrace (p : Params) (sim : Sim) (address : ℕ) (text : List UInt8) :
    Option (Sim × List String) := readLoop p sim (records address (items text))

/-- The accesses that the loop makes. -/
def traceAccesses (address : ℕ) (text : List UInt8) : List ℕ :=
  (records address (items text)).flatMap Record.accesses

variable {item : Item} {text rest : List UInt8} {n : ℕ}

/-! ### The loop -/

/-- A call takes something of the text. -/
theorem length_fscanf (h : fscanf text = some (item, rest)) : rest.length < text.length := by
  have hskip := length_skipSpace text
  unfold fscanf at h
  split at h
  · simp at h
  · rename_i c s hs
    rw [hs, List.length_cons] at hskip
    have hint := length_integer 16 s
    split at h
    · rename_i hi
      obtain ⟨-, rfl⟩ := Prod.mk.inj (Option.some.inj h)
      rw [hi] at hint
      exact (Nat.lt_succ_of_le hint).trans_le hskip
    · obtain ⟨-, rfl⟩ := Prod.mk.inj (Option.some.inj h)
      exact (Nat.succ_pos _).trans_le hskip
    · rename_i a comma u hi
      rw [hi, List.length_cons] at hint
      split at h
      · have hint' := length_integer 10 u
        split at h
        all_goals
          rename_i hi'
          obtain ⟨-, rfl⟩ := Prod.mk.inj (Option.some.inj h)
          simp only [hi'] at hint'
          omega
      · obtain ⟨-, rfl⟩ := Prod.mk.inj (Option.some.inj h)
        rw [List.length_cons]
        omega

theorem scan_nil (n : ℕ) : scan n [] = [] := by
  cases n <;> rfl

/-- More calls than bytes change nothing. -/
theorem scan_eq {m : ℕ} (hn : text.length ≤ n) (hm : text.length ≤ m) :
    scan n text = scan m text := by
  induction n generalizing m text with
  | zero =>
    obtain rfl := List.length_eq_zero_iff.1 (Nat.le_zero.1 hn)
    rw [scan_nil, scan_nil]
  | succ n ih =>
    cases m with
    | zero =>
      obtain rfl := List.length_eq_zero_iff.1 (Nat.le_zero.1 hm)
      rw [scan_nil, scan_nil]
    | succ m =>
      unfold scan
      cases hf : fscanf text with
      | none => rfl
      | some r =>
        have hlt := length_fscanf hf
        exact congrArg _ (ih (by omega) (by omega))

/-- **The loop** calls `fscanf` until it converts nothing. -/
theorem items_eq (text : List UInt8) : items text =
    match fscanf text with
    | none => []
    | some (item, rest) => item :: items rest := by
  rw [items, scan_eq le_rfl text.length.le_succ, scan]
  cases hf : fscanf text with
  | none => rfl
  | some r => exact congrArg _ (scan_eq (length_fscanf hf).le le_rfl)

/-- The loop ends as its accesses one after the other do. -/
theorem readTrace_accessAll (p : Params) (sim : Sim) (address : ℕ) (text : List UInt8) :
    (readTrace p sim address text).map Prod.fst =
      (accessAll p sim (traceAccesses address text)).map Prod.fst :=
  readLoop_accessAll p sim _

/-! ### Records and other items -/

/-- The item has the full form. -/
def Item.isFull : Item → Bool
  | .full .. => true
  | _ => false

/-- The item has a letter for which `main` accesses the cache. -/
def Item.isAccess : Item → Bool
  | .letter c | .address c _ | .full c _ _ => Char.ofUInt8 c ∈ ['L', 'M', 'S']

/-- The accesses that the items of the full form stand for. -/
def Item.accesses : Item → List ℕ
  | .full c a _ => Record.accesses ⟨Char.ofUInt8 c, a⟩
  | _ => []

theorem Record.accesses_eq_nil (r : Record) :
    r.accesses = [] ↔ r.accessType ∉ ['L', 'M', 'S'] := by
  unfold Record.accesses
  split_ifs <;> simp [*]

/-- A letter makes accesses or not, whatever the address. -/
theorem Item.accesses_eq_nil (item : Item) (address : ℕ) :
    (item.leaves address).accesses = [] ↔ item.isAccess = false := by
  rw [Record.accesses_eq_nil]
  cases item <;> simp [Item.leaves, Item.isAccess]

/-- The loop makes at least the accesses of the items of the full form. -/
theorem accesses_sublist (address : ℕ) (is : List Item) :
    (is.flatMap Item.accesses).Sublist ((records address is).flatMap Record.accesses) := by
  induction is generalizing address with
  | nil => exact .slnil
  | cons item is ih =>
    rw [records, List.flatMap_cons, List.flatMap_cons]
    refine .append ?_ (ih _)
    cases item with
    | letter c => exact List.nil_sublist _
    | address c a => exact List.nil_sublist _
    | full c a n => exact .refl _

theorem accesses_eq_iff (address : ℕ) (is : List Item) :
    (records address is).flatMap Record.accesses = is.flatMap Item.accesses ↔
      ∀ item ∈ is, item.isFull = false → item.isAccess = false := by
  induction is generalizing address with
  | nil => simp [records]
  | cons item is ih =>
    rw [records, List.flatMap_cons, List.flatMap_cons, List.forall_mem_cons,
      ← ih (item.leaves address).address]
    -- what an item that is not full adds stands for itself, as nothing behind it is less
    have hpartial : item.accesses = [] → ((item.leaves address).accesses ++
        (records (item.leaves address).address is).flatMap Record.accesses =
          item.accesses ++ is.flatMap Item.accesses ↔ item.isAccess = false ∧
        (records (item.leaves address).address is).flatMap Record.accesses =
          is.flatMap Item.accesses) := by
      intro hnil
      rw [hnil, List.nil_append, ← item.accesses_eq_nil address]
      constructor
      · intro he
        have hle := (accesses_sublist (item.leaves address).address is).length_le
        rw [← he, List.length_append] at hle
        have hlen : (item.leaves address).accesses.length = 0 := by omega
        have hz := List.length_eq_zero_iff.1 hlen
        exact ⟨hz, by simpa [hz] using he⟩
      · rintro ⟨hz, he⟩
        rw [hz, he, List.nil_append]
    cases item with
    | letter c => simpa [Item.isFull] using hpartial rfl
    | address c a => simpa [Item.isFull] using hpartial rfl
    | full c a n =>
      simp only [Item.isFull, Bool.true_eq_false, false_implies, true_and]
      exact List.append_right_inj _

/-- **Only records make accesses**, exactly if no other item has the letter of one.
The loop ends as these accesses do. -/
theorem recorded_iff (p : Params) (sim : Sim) (address : ℕ) (text : List UInt8) :
    ((readTrace p sim address text).map Prod.fst =
      (accessAll p sim (traceAccesses address text)).map Prod.fst) ∧
    (traceAccesses address text = (items text).flatMap Item.accesses ↔
      ∀ item ∈ items text, item.isFull = false → item.isAccess = false) :=
  ⟨readTrace_accessAll p sim address text, accesses_eq_iff address _⟩

/-- The first word that valgrind's tool prints is taken for the load of an address. -/
theorem header_accesses : items (bytes "Lackey") =
      [.address 76 172, .address 107 14, .letter 121] ∧
    traceAccesses 0 (bytes "Lackey") ≠ (items (bytes "Lackey")).flatMap Item.accesses := by
  decide

end CacheLab
end CsappLabs
