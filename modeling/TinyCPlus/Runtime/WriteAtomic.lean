import Mathlib.Data.List.Basic
import Mathlib.Logic.Function.Basic
import Mathlib.Tactic

/-!
# Replacing a file (`tc_file_write_atomic`)

The new contents go to a temporary file beside the target, which is renamed at the end.  Each call
of the system has its result given; the results of `write` are an endless list.
-/

namespace TinyCPlus.Runtime

/-! ## Files -/

structure DiskFile where
  contents : List UInt8
  mode : ℕ
deriving DecidableEq

/-- The files by their paths. -/
abbrev Disk := List UInt8 → Option DiskFile

namespace Disk

variable (disk : Disk) (tmp path : List UInt8)

def create : Disk := Function.update disk tmp (some ⟨[], 0o600⟩)

def chmod (mode : ℕ) : Disk :=
  Function.update disk tmp ((disk tmp).map fun file ↦ { file with mode := mode })

def append (bytes : List UInt8) : Disk :=
  Function.update disk tmp
    ((disk tmp).map fun file ↦ { file with contents := file.contents ++ bytes })

def rename : Disk := Function.update (Function.update disk path (disk tmp)) tmp none

def unlink : Disk := Function.update disk tmp none

end Disk

/-! ## The calls of the system -/

inductive WriteResult where
  /-- So many bytes are written, but no more than were given. -/
  | wrote (n : ℕ)
  /-- `EINTR` -/
  | interrupted
  | failed

/-- The template of `mkstemp` with the six characters it chose. -/
def temporary (path suffix : List UInt8) : List UInt8 :=
  path ++ [46, 116, 105, 110, 121, 45] ++ suffix

/-- The results of the calls.  The file that `mkstemp` creates does not exist before. -/
structure SystemCalls (disk : Disk) (path : List UInt8) where
  cstring : Bool
  malloc : Bool
  mkstemp : Option (List UInt8)
  fresh : ∀ suffix ∈ mkstemp, disk (temporary path suffix) = none
  /-- The mode of the target. -/
  stat : Option ℕ
  fchmodFails : Bool
  write : ℕ → WriteResult
  fsyncFails : Bool
  closeFails : Bool
  renameFails : Bool

/-- `while (!error && written < contents.length)`, with the number of the next call of `write`. -/
def writeLoop (tmp contents : List UInt8) (write : ℕ → WriteResult) :
    ℕ → ℕ → ℕ → Disk → Option (ℕ × Disk)
  | 0, _, _, _ => none
  | fuel + 1, k, written, disk =>
      if written < contents.length then
        match write k with
        | .interrupted => writeLoop tmp contents write fuel (k + 1) written disk
        | .failed => some (1, disk)
        | .wrote n =>
            let n := min n (contents.length - written)
            if n = 0 then some (1, disk)
            else
              writeLoop tmp contents write fuel (k + 1) (written + n)
                (disk.append tmp ((contents.drop written).take n))
      else some (0, disk)

namespace SystemCalls

variable {disk : Disk} {path : List UInt8} (os : SystemCalls disk path)

/-- `stat` and `fchmod`. -/
def copyMode (tmp : List UInt8) (disk : Disk) : ℕ × Disk :=
  match os.stat with
  | none => (0, disk)
  | some mode => if os.fchmodFails then (1, disk) else (0, disk.chmod tmp (mode &&& 0o777))

/-- `fsync`, `close`, `rename` and `unlink`. -/
def finish (tmp : List UInt8) (error : ℕ) (disk : Disk) : ℕ × Disk :=
  let error := if error = 0 ∧ os.fsyncFails then 1 else error
  let error := if os.closeFails then 1 else error
  if error = 0 ∧ ¬os.renameFails then (0, disk.rename tmp path)
  else (if error = 0 then 1 else error, disk.unlink tmp)

end SystemCalls

/-- `tc_file_write_atomic` with so many turns of its loop at most: the result and the files. -/
def tcFileWriteAtomic (disk : Disk) (path contents : List UInt8) (os : SystemCalls disk path)
    (fuel : ℕ) : Option (ℕ × Disk) :=
  if 0 ∈ path ∨ ¬os.cstring then some (1, disk)
  else if ¬os.malloc then some (8, disk)
  else
    match os.mkstemp with
    | none => some (1, disk)
    | some suffix => do
        let tmp := temporary path suffix
        let (error, disk) := os.copyMode tmp (disk.create tmp)
        let (error, disk) ←
          if error = 0 then writeLoop tmp contents os.write fuel 0 0 disk
          else some (error, disk)
        some (os.finish tmp error disk)

/-! ## The loop -/

/-- The temporary file holds these contents, and nothing else has changed. -/
structure Disk.Holds (disk disk' : Disk) (tmp contents : List UInt8) : Prop where
  others : ∀ p, p ≠ tmp → disk' p = disk p
  file : ∃ mode, disk' tmp = some ⟨contents, mode⟩

theorem Disk.Holds.append {disk disk' : Disk} {tmp contents : List UInt8}
    (h : Disk.Holds disk disk' tmp contents) (bytes : List UInt8) :
    Disk.Holds disk (disk'.append tmp bytes) tmp (contents ++ bytes) := by
  obtain ⟨mode, hfile⟩ := h.file
  constructor
  · intro p hp
    rw [Disk.append, Function.update_of_ne hp, h.others p hp]
  · exact ⟨mode, by rw [Disk.append, Function.update_self, hfile]; rfl⟩

theorem Disk.Holds.chmod {disk disk' : Disk} {tmp contents : List UInt8}
    (h : Disk.Holds disk disk' tmp contents) (mode : ℕ) :
    Disk.Holds disk (disk'.chmod tmp mode) tmp contents := by
  obtain ⟨old, hfile⟩ := h.file
  constructor
  · intro p hp
    rw [Disk.chmod, Function.update_of_ne hp, h.others p hp]
  · exact ⟨mode, by rw [Disk.chmod, Function.update_self, hfile]; rfl⟩

/-- What the loop leaves behind: an error, or the whole contents. -/
structure Written (disk : Disk) (tmp contents : List UInt8) (error : ℕ) (result : Disk) :
    Prop where
  others : ∀ p, p ≠ tmp → result p = disk p
  whole : error = 0 → Disk.Holds disk result tmp contents

/-- The loop ends, in the same way with any larger number of turns.  Each turn writes a byte or is
one of the interrupted ones. -/
theorem writeLoop_ends {disk : Disk} {tmp contents : List UInt8} {write : ℕ → WriteResult}
    {bound : ℕ} (hfinite : ∀ k, bound ≤ k → write k ≠ .interrupted) (n k written : ℕ)
    (disk' : Disk) (hn : bound - k + (contents.length - written) ≤ n)
    (hholds : Disk.Holds disk disk' tmp (contents.take written)) :
    ∃ error result, (∀ fuel, n < fuel →
        writeLoop tmp contents write fuel k written disk' = some (error, result)) ∧
      Written disk tmp contents error result := by
  induction n generalizing k written disk' with
  | zero =>
    have hlen : contents.length ≤ written := by omega
    rw [List.take_of_length_le hlen] at hholds
    refine ⟨0, disk', fun fuel hfuel ↦ ?_, hholds.others, fun _ ↦ hholds⟩
    obtain ⟨fuel, rfl⟩ := Nat.exists_eq_succ_of_ne_zero (Nat.ne_of_gt hfuel)
    rw [writeLoop, if_neg (by omega)]
  | succ n ih =>
    by_cases hmore : written < contents.length
    · cases hwrite : write k with
      | interrupted =>
        have hk : k < bound := not_le.mp fun hk ↦ hfinite k hk hwrite
        obtain ⟨error, result, hloop, hwritten⟩ := ih (k + 1) written disk' (by omega) hholds
        refine ⟨error, result, fun fuel hfuel ↦ ?_, hwritten⟩
        obtain ⟨fuel, rfl⟩ := Nat.exists_eq_succ_of_ne_zero (Nat.ne_zero_of_lt hfuel)
        rw [writeLoop, if_pos hmore, hwrite]
        exact hloop fuel (by omega)
      | failed =>
        refine ⟨1, disk', fun fuel hfuel ↦ ?_, hholds.others, fun h ↦ absurd h one_ne_zero⟩
        obtain ⟨fuel, rfl⟩ := Nat.exists_eq_succ_of_ne_zero (Nat.ne_zero_of_lt hfuel)
        rw [writeLoop, if_pos hmore, hwrite]
      | wrote m =>
        by_cases hzero : min m (contents.length - written) = 0
        · refine ⟨1, disk', fun fuel hfuel ↦ ?_, hholds.others, fun h ↦ absurd h one_ne_zero⟩
          obtain ⟨fuel, rfl⟩ := Nat.exists_eq_succ_of_ne_zero (Nat.ne_zero_of_lt hfuel)
          rw [writeLoop, if_pos hmore, hwrite]
          exact if_pos hzero
        · have hnext := hholds.append
            ((contents.drop written).take (min m (contents.length - written)))
          rw [← List.take_add] at hnext
          obtain ⟨error, result, hloop, hwritten⟩ := ih (k + 1) _ _ (by omega) hnext
          refine ⟨error, result, fun fuel hfuel ↦ ?_, hwritten⟩
          obtain ⟨fuel, rfl⟩ := Nat.exists_eq_succ_of_ne_zero (Nat.ne_zero_of_lt hfuel)
          rw [writeLoop, if_pos hmore, hwrite]
          exact (if_neg hzero).trans (hloop fuel (by omega))
    · rw [List.take_of_length_le (not_lt.mp hmore)] at hholds
      refine ⟨0, disk', fun fuel hfuel ↦ ?_, hholds.others, fun _ ↦ hholds⟩
      obtain ⟨fuel, rfl⟩ := Nat.exists_eq_succ_of_ne_zero (Nat.ne_zero_of_lt hfuel)
      rw [writeLoop, if_neg hmore]

/-! ## The whole call -/

/-- The target has the contents after a success and is as before after an error, and all other
paths, the temporary ones too, are as before. -/
structure Replaced (disk : Disk) (path contents : List UInt8) (error : ℕ) (result : Disk) :
    Prop where
  success : error = 0 → ∃ file, result path = some file ∧ file.contents = contents
  failure : error ≠ 0 → result path = disk path
  others : ∀ p, p ≠ path → result p = disk p

theorem Replaced.unchanged (disk : Disk) (path contents : List UInt8) {error : ℕ}
    (h : error ≠ 0) : Replaced disk path contents error disk :=
  ⟨fun h0 ↦ absurd h0 h, fun _ ↦ rfl, fun _ _ ↦ rfl⟩

theorem temporary_ne (path suffix : List UInt8) : temporary path suffix ≠ path := by
  intro h
  have hlen := congrArg List.length h
  simp only [temporary, List.length_append, List.length_cons, List.length_nil] at hlen
  omega

namespace SystemCalls

variable {disk : Disk} {path : List UInt8} (os : SystemCalls disk path)

theorem copyMode_written (tmp contents : List UInt8) :
    (os.copyMode tmp (disk.create tmp)).1 ≠ 0 ∧
        Written disk tmp contents (os.copyMode tmp (disk.create tmp)).1
          (os.copyMode tmp (disk.create tmp)).2 ∨
      (os.copyMode tmp (disk.create tmp)).1 = 0 ∧
        Disk.Holds disk (os.copyMode tmp (disk.create tmp)).2 tmp [] := by
  have hothers : ∀ p, p ≠ tmp → disk.create tmp p = disk p := fun p hp ↦
    Function.update_of_ne hp _ _
  have hcreate : Disk.Holds disk (disk.create tmp) tmp [] :=
    ⟨hothers, 0o600, Function.update_self _ _ _⟩
  unfold copyMode
  split
  · exact Or.inr ⟨rfl, hcreate⟩
  · split_ifs with hfails
    · exact Or.inl ⟨one_ne_zero, hothers, fun h ↦ absurd h one_ne_zero⟩
    · exact Or.inr ⟨rfl, hcreate.chmod _⟩

theorem finish_replaced {tmp contents : List UInt8} {error : ℕ} {result : Disk}
    (htmp : tmp ≠ path) (hfresh : disk tmp = none) (h : Written disk tmp contents error result) :
    Replaced disk path contents (os.finish tmp error result).1
      (os.finish tmp error result).2 := by
  have hunlink : ∀ p, result.unlink tmp p = disk p := by
    intro p
    by_cases hp : p = tmp
    · rw [hp, hfresh]
      exact Function.update_self _ _ _
    · exact (Function.update_of_ne hp _ _).trans (h.others p hp)
  unfold finish
  dsimp only
  generalize herror : (if os.closeFails = true then 1
    else if error = 0 ∧ os.fsyncFails = true then 1 else error) = closed
  split_ifs with hrename hclosed
  · have hzero : error = 0 := by
      rw [hrename.1] at herror
      split_ifs at herror
      exact herror
    obtain ⟨mode, hfile⟩ := (h.whole hzero).file
    refine ⟨fun _ ↦ ⟨⟨contents, mode⟩, ?_, rfl⟩, fun hne ↦ absurd rfl hne, fun p hp ↦ ?_⟩
    · exact (Function.update_of_ne htmp.symm _ _).trans
        ((Function.update_self _ _ _).trans hfile)
    · by_cases hp' : p = tmp
      · rw [hp', hfresh]
        exact Function.update_self _ _ _
      · exact (Function.update_of_ne hp' _ _).trans
          ((Function.update_of_ne hp _ _).trans (h.others p hp'))
  · exact ⟨fun h1 ↦ absurd h1 one_ne_zero, fun _ ↦ hunlink path, fun p _ ↦ hunlink p⟩
  · exact ⟨fun h0 ↦ absurd h0 hclosed, fun _ ↦ hunlink path, fun p _ ↦ hunlink p⟩

end SystemCalls

/-- The call ends in a replacement. -/
theorem tcFileWriteAtomic_ends (disk : Disk) (path contents : List UInt8)
    (os : SystemCalls disk path) {bound : ℕ}
    (hfinite : ∀ k, bound ≤ k → os.write k ≠ .interrupted) :
    ∃ error result, (∀ fuel, bound + contents.length < fuel →
        tcFileWriteAtomic disk path contents os fuel = some (error, result)) ∧
      Replaced disk path contents error result := by
  unfold tcFileWriteAtomic
  by_cases hname : 0 ∈ path ∨ ¬os.cstring
  · exact ⟨1, disk, fun _ _ ↦ if_pos hname, Replaced.unchanged disk path contents one_ne_zero⟩
  simp only [if_neg hname]
  by_cases hmalloc : ¬os.malloc
  · exact ⟨8, disk, fun _ _ ↦ if_pos hmalloc, Replaced.unchanged disk path contents (by decide)⟩
  simp only [if_neg hmalloc]
  cases hmkstemp : os.mkstemp with
  | none => exact ⟨1, disk, fun _ _ ↦ rfl, Replaced.unchanged disk path contents one_ne_zero⟩
  | some suffix =>
    have htmp := temporary_ne path suffix
    have hfresh := os.fresh suffix hmkstemp
    rcases os.copyMode_written (temporary path suffix) contents with
      ⟨herror, hwritten⟩ | ⟨herror, hholds⟩
    · refine ⟨_, _, fun fuel _ ↦ ?_, os.finish_replaced htmp hfresh hwritten⟩
      simp only [if_neg herror]
      rfl
    · rw [← List.take_zero (l := contents)] at hholds
      obtain ⟨error, result, hloop, hwritten⟩ :=
        writeLoop_ends hfinite (bound + contents.length) 0 0 _ (by omega) hholds
      refine ⟨_, _, fun fuel hfuel ↦ ?_, os.finish_replaced htmp hfresh hwritten⟩
      simp only [if_pos herror, hloop fuel hfuel]
      rfl

/-- The call ends.  After a success the target has the contents, after an error it is as before,
and no temporary file is left. -/
theorem tcFileWriteAtomic_replaces (disk : Disk) (path contents : List UInt8)
    (os : SystemCalls disk path) (hfinite : ∃ bound, ∀ k, bound ≤ k → os.write k ≠ .interrupted) :
    ∃ turns error result, (∀ fuel, turns < fuel →
        tcFileWriteAtomic disk path contents os fuel = some (error, result)) ∧
      (error = 0 → ∃ file, result path = some file ∧ file.contents = contents) ∧
      (error ≠ 0 → result path = disk path) ∧ (∀ p, p ≠ path → result p = disk p) ∧
      ∀ suffix ∈ os.mkstemp, result (temporary path suffix) = none := by
  obtain ⟨bound, hfinite⟩ := hfinite
  obtain ⟨error, result, hcall, hsuccess, hfailure, hothers⟩ :=
    tcFileWriteAtomic_ends disk path contents os hfinite
  refine ⟨bound + contents.length, error, result, hcall, hsuccess, hfailure, hothers, ?_⟩
  intro suffix hsuffix
  rw [hothers _ (temporary_ne path suffix)]
  exact os.fresh suffix hsuffix

/-- A system that writes byte by byte, where the second `write` is interrupted. -/
def byteByByte : SystemCalls (fun _ ↦ none) [97] where
  cstring := true
  malloc := true
  mkstemp := some [120, 120, 120, 120, 120, 120]
  fresh := fun _ _ ↦ rfl
  stat := none
  fchmodFails := false
  write := fun k ↦ if k = 1 then .interrupted else .wrote 1
  fsyncFails := false
  closeFails := false
  renameFails := false

theorem tcFileWriteAtomic_replaces_byteByByte : ∃ turns error result, (∀ fuel, turns < fuel →
    tcFileWriteAtomic _ _ [1, 2, 3] byteByByte fuel = some (error, result)) ∧
      (error = 0 → ∃ file, result [97] = some file ∧ file.contents = [1, 2, 3]) ∧
      (error ≠ 0 → result [97] = none) := by
  have hfinite : ∃ bound, ∀ k, bound ≤ k → byteByByte.write k ≠ .interrupted := by
    refine ⟨2, fun k hk ↦ ?_⟩
    have hne : k ≠ 1 := by omega
    simp [byteByByte, hne]
  obtain ⟨turns, error, result, hcall, hsuccess, hfailure, -, -⟩ :=
    tcFileWriteAtomic_replaces _ _ [1, 2, 3] byteByByte hfinite
  exact ⟨turns, error, result, hcall, hsuccess, hfailure⟩

end TinyCPlus.Runtime
