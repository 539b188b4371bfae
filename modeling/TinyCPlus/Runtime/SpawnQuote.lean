import TinyCPlus.Library.CommandLine

/-!
# The command line of a new process on Windows

`tc_process_spawn` of the runtime writes the line into a buffer that `realloc` gives, and
`tc_process` of the compiler into a `Buffer`.
-/

namespace TinyCPlus.Runtime

open Library.CommandLine

/-- The marks of the C runtime that splits the line. -/
def crt : Marks UInt8 where
  quote := 34
  slash := 92
  blank b := b == 32 || b == 9
  slash_ne_quote := by decide
  blank_quote := by decide
  blank_slash := by decide

/-- An argument without NUL bytes, in the memory of a process. -/
structure Argument where
  bytes : List UInt8
  noNul : 0 ∉ bytes
  held : bytes.length ≤ 2 ^ 60

/-- Which sizes `realloc` gives: no object of a process has more than `2 ^ 62` bytes. -/
structure Heap where
  realloc : ℕ → Bool
  limit : ∀ size, realloc size = true → size ≤ 2 ^ 62

/-! ## `tc_spawn_quote` -/

/-- The line that is built, and whether a byte was written past its capacity. -/
structure Line where
  text : List UInt8
  capacity : ℕ
  overrun : Bool
deriving DecidableEq

namespace Line

def empty : Line := ⟨[], 0, false⟩

/-- `p[(*length)++] = b` -/
def put (line : Line) (b : UInt8) : Line where
  text := line.text ++ [b]
  capacity := line.capacity
  overrun := line.overrun || decide (line.capacity ≤ line.text.length)

/-- `p[*length] = 0` -/
def terminate (line : Line) : Line :=
  { line with overrun := line.overrun || decide (line.capacity ≤ line.text.length) }

def backslashes (line : Line) : ℕ → Line
  | 0 => line
  | slashes + 1 => (line.put 92).backslashes slashes

def doubledBackslashes (line : Line) : ℕ → Line
  | 0 => line
  | slashes + 1 => ((line.put 92).put 92).doubledBackslashes slashes

/-- The loop over the argument and what follows it. -/
def quoteFrom : List UInt8 → ℕ → Line → Line
  | [], slashes, line => ((line.doubledBackslashes slashes).put 34).terminate
  | b :: rest, slashes, line =>
      if b = 92 then quoteFrom rest (slashes + 1) line
      else if b = 34 then
        quoteFrom rest 0 (((line.doubledBackslashes slashes).put 92).put 34)
      else quoteFrom rest 0 ((line.backslashes slashes).put b)

end Line

inductive SpawnError where
  /-- `realloc` returned a null pointer. -/
  | noMemory
  /-- The capacity is doubled for ever. -/
  | endless
deriving DecidableEq

/-- `while (next < need) next *= 2`, in so many turns at most. -/
def doubled (need : ℕ) : ℕ → ℕ → Option ℕ
  | 0, _ => none
  | turns + 1, next =>
      if next < need then doubled need turns (next * 2 % 2 ^ 64) else some next

/-- The line with the capacity that the argument needs.  The sums are of type `size_t`; a power of
two is doubled to zero in 64 turns, and zero stays. -/
def Line.reserve (heap : Heap) (line : Line) (n : ℕ) : Except SpawnError Line :=
  let need := (line.text.length + 3 + 2 * n + 1) % 2 ^ 64
  if line.capacity < need then
    match doubled need 65 (if line.capacity = 0 then 256 else line.capacity) with
    | none => .error .endless
    | some next =>
        if heap.realloc next then .ok { line with capacity := next } else .error .noMemory
  else .ok line

def tcSpawnQuote (heap : Heap) (line : Line) (s : List UInt8) : Except SpawnError Line := do
  let line ← line.reserve heap s.length
  let line := if line.text.length ≠ 0 then line.put 32 else line
  return Line.quoteFrom s 0 (line.put 34)

/-- The loop of `tc_process_spawn` over its arguments. -/
def spawnLine (heap : Heap) : List Argument → Line → Except SpawnError Line
  | [], line => .ok line
  | argument :: rest, line => do
      let line ← tcSpawnQuote heap line argument.bytes
      spawnLine heap rest line

/-! ## `win_arg` -/

/-- The loop of `win_arg` over a text that ends before its first NUL byte. -/
def winArgFrom : List UInt8 → ℕ → List UInt8 → List UInt8
  | [], slashes, b => b ++ (List.replicate slashes [92, 92]).flatten ++ [34]
  | c :: rest, slashes, b =>
      if c = 0 then b ++ (List.replicate slashes [92, 92]).flatten ++ [34]
      else if c = 92 then winArgFrom rest (slashes + 1) b
      else if c = 34 then
        winArgFrom rest 0 (b ++ (List.replicate slashes [92, 92]).flatten ++ [92, 34])
      else winArgFrom rest 0 (b ++ List.replicate slashes 92 ++ [c])

/-- What `win_arg` adds to the buffer. -/
def winArg (b s : List UInt8) : List UInt8 := winArgFrom s 0 (b ++ [34])

/-- The loop of `tc_process` over its arguments. -/
def processLine : List (List UInt8) → ℕ → List UInt8 → List UInt8
  | [], _, command => command
  | s :: rest, i, command =>
      processLine rest (i + 1) (winArg (if i ≠ 0 then command ++ [32] else command) s)

/-! ## What the writers write -/

namespace Line

def puts (line : Line) (bytes : List UInt8) : Line := bytes.foldl put line

@[simp] theorem puts_text (line : Line) (bytes : List UInt8) :
    (line.puts bytes).text = line.text ++ bytes := by
  induction bytes generalizing line with
  | nil => simp [puts]
  | cons b bytes ih => simpa [puts, put] using ih (line.put b)

@[simp] theorem puts_capacity (line : Line) (bytes : List UInt8) :
    (line.puts bytes).capacity = line.capacity := by
  induction bytes generalizing line with
  | nil => rfl
  | cons b bytes ih => exact ih (line.put b)

theorem puts_append (line : Line) (bytes more : List UInt8) :
    line.puts (bytes ++ more) = (line.puts bytes).puts more := List.foldl_append

theorem puts_fits (line : Line) (bytes : List UInt8) (hline : line.overrun = false)
    (hfits : line.text.length + bytes.length ≤ line.capacity) :
    (line.puts bytes).overrun = false := by
  induction bytes generalizing line with
  | nil => exact hline
  | cons b bytes ih =>
      simp only [List.length_cons] at hfits
      apply ih (line.put b)
      · simp only [put, hline, Bool.false_or, decide_eq_false_iff_not]
        omega
      · simp only [put, List.length_append, List.length_singleton]
        omega

theorem backslashes_eq (line : Line) (slashes : ℕ) :
    line.backslashes slashes = line.puts (List.replicate slashes 92) := by
  induction slashes generalizing line with
  | zero => rfl
  | succ slashes ih => exact ih (line.put 92)

theorem doubledBackslashes_eq (line : Line) (slashes : ℕ) :
    line.doubledBackslashes slashes = line.puts (List.replicate (2 * slashes) 92) := by
  induction slashes generalizing line with
  | zero => rfl
  | succ slashes ih => exact ih ((line.put 92).put 92)

theorem quoteFrom_eq (s : List UInt8) (slashes : ℕ) (line : Line) :
    quoteFrom s slashes line = (line.puts (quotedTail crt s slashes)).terminate := by
  induction s generalizing slashes line with
  | nil =>
      rw [quoteFrom, doubledBackslashes_eq, quotedTail, puts_append]
      rfl
  | cons b rest ih =>
      have hslash : crt.slash = 92 := rfl
      have hquote : crt.quote = 34 := rfl
      simp only [quoteFrom, quotedTail, hslash, hquote]
      split_ifs
      · exact ih _ _
      · rw [ih, doubledBackslashes_eq, puts_append]
        rfl
      · rw [ih, backslashes_eq, puts_append]
        rfl

end Line

theorem replicate_pairs (slashes : ℕ) :
    (List.replicate slashes [(92 : UInt8), 92]).flatten = List.replicate (2 * slashes) 92 := by
  induction slashes with
  | zero => rfl
  | succ slashes ih => simp [List.replicate_succ, Nat.mul_add, ih]

theorem winArgFrom_eq (s : List UInt8) (hs : 0 ∉ s) (slashes : ℕ) (b : List UInt8) :
    winArgFrom s slashes b = b ++ quotedTail crt s slashes := by
  induction s generalizing slashes b with
  | nil =>
      rw [winArgFrom, replicate_pairs, quotedTail, List.append_assoc]
      rfl
  | cons c rest ih =>
      have hslash : crt.slash = 92 := rfl
      have hquote : crt.quote = 34 := rfl
      have hc : c ≠ 0 := fun h ↦ hs (h ▸ List.mem_cons_self)
      have hrest : 0 ∉ rest := fun h ↦ hs (List.mem_cons_of_mem c h)
      simp only [winArgFrom, quotedTail, hslash, hquote, if_neg hc, replicate_pairs]
      split_ifs <;> simp [ih hrest]

theorem winArg_eq (b s : List UInt8) (hs : 0 ∉ s) : winArg b s = b ++ quoted crt s := by
  rw [winArg, winArgFrom_eq s hs]
  simp [quoted, crt]

/-! ## The capacity -/

/-- A line that was never overrun, in a buffer that `realloc` can give. -/
structure Line.Sound (line : Line) : Prop where
  fits : line.text.length ≤ line.capacity
  small : line.capacity ≤ 2 ^ 62
  kept : line.overrun = false

theorem Line.Sound.empty : Line.Sound .empty := ⟨Nat.le_refl _, Nat.zero_le _, rfl⟩

theorem doubled_reaches (need : ℕ) (hneed : need ≤ 2 ^ 63) (turns next : ℕ)
    (hreach : need ≤ next * 2 ^ turns) :
    ∃ size, doubled need (turns + 1) next = some size ∧ need ≤ size := by
  induction turns generalizing next with
  | zero => exact ⟨next, by simp [doubled]; omega, by omega⟩
  | succ turns ih =>
      unfold doubled
      split_ifs with hnext
      · have hmod : next * 2 % 2 ^ 64 = next * 2 := Nat.mod_eq_of_lt (by omega)
        rw [hmod]
        apply ih
        rw [Nat.pow_succ] at hreach
        calc need ≤ next * (2 ^ turns * 2) := hreach
          _ = next * 2 * 2 ^ turns := by ring
      · exact ⟨next, rfl, by omega⟩

/-- What `reserve` can do: there is room for the argument, or `realloc` refused. -/
theorem Line.reserve_cases (heap : Heap) (line : Line) (hline : line.Sound) (n : ℕ)
    (hn : n ≤ 2 ^ 60) :
    (∃ room : Line, line.reserve heap n = .ok room ∧ room.text = line.text ∧
      room.Sound ∧ line.text.length + 4 + 2 * n ≤ room.capacity) ∨
    (line.reserve heap n = .error .noMemory ∧ ∃ size, heap.realloc size = false) := by
  have hfits := hline.fits
  have hsmall := hline.small
  have hmod : (line.text.length + 3 + 2 * n + 1) % 2 ^ 64 = line.text.length + 4 + 2 * n := by
    rw [Nat.mod_eq_of_lt (by omega)]
    omega
  simp only [reserve, hmod]
  by_cases hcapacity : line.capacity < line.text.length + 4 + 2 * n
  · obtain ⟨size, hsize, hroom⟩ :=
      doubled_reaches (line.text.length + 4 + 2 * n) (by omega) 64
        (if line.capacity = 0 then 256 else line.capacity) (by split_ifs <;> omega)
    rw [if_pos hcapacity, hsize]
    cases hgiven : heap.realloc size with
    | true =>
        left
        refine ⟨{ line with capacity := size }, by simp [hgiven], rfl, ?_, hroom⟩
        constructor
        · show line.text.length ≤ size
          omega
        · exact heap.limit size hgiven
        · exact hline.kept
    | false => exact .inr ⟨by simp [hgiven], size, hgiven⟩
  · rw [if_neg hcapacity]
    exact .inl ⟨line, rfl, rfl, hline, by omega⟩

/-- What precedes an argument that is not the first. -/
def separator (text : List UInt8) : List UInt8 := if text.length ≠ 0 then [32] else []

/-- What `tc_spawn_quote` can do. -/
theorem tcSpawnQuote_cases (heap : Heap) (line : Line) (hline : line.Sound)
    (argument : Argument) :
    (∃ next : Line, tcSpawnQuote heap line argument.bytes = .ok next ∧
      next.text = line.text ++ separator line.text ++ quoted crt argument.bytes ∧
      next.Sound) ∨
    (tcSpawnQuote heap line argument.bytes = .error .noMemory ∧
      ∃ size, heap.realloc size = false) := by
  obtain ⟨room, hreserve, htext, hroom, hcapacity⟩ | ⟨hreserve, hrefused⟩ :=
    line.reserve_cases heap hline argument.bytes.length argument.held
  · left
    have hblank : (if room.text.length ≠ 0 then room.put 32 else room) =
        room.puts (separator line.text) := by
      rw [htext, separator]
      split_ifs <;> rfl
    have hquote : tcSpawnQuote heap line argument.bytes =
        .ok (room.puts (separator line.text ++ quoted crt argument.bytes)).terminate := by
      simp only [tcSpawnQuote, hreserve, bind, Except.bind, hblank, Line.quoteFrom_eq]
      rw [Line.puts_append]
      rfl
    have hlength := quoted_length crt argument.bytes
    have hseparator : (separator line.text).length ≤ 1 := by
      rw [separator]
      split_ifs <;> simp
    have hkept := room.puts_fits (separator line.text ++ quoted crt argument.bytes) hroom.kept
      (by rw [List.length_append, htext]; omega)
    refine ⟨_, hquote, by simp [Line.terminate, htext], ?_, ?_, ?_⟩
    · simp only [Line.terminate, Line.puts_text, List.length_append, htext, Line.puts_capacity]
      omega
    · simpa [Line.terminate] using hroom.small
    · simp only [Line.terminate, hkept, Line.puts_text, List.length_append, htext,
        Line.puts_capacity, Bool.false_or, decide_eq_false_iff_not]
      omega
  · exact .inr ⟨by simp [tcSpawnQuote, hreserve, bind, Except.bind], hrefused⟩

/-! ## Whole lines -/

theorem joined_append_singleton (words : List (List UInt8)) (word : List UInt8) :
    joined crt 32 (words ++ [word]) =
      joined crt 32 words ++ separator (joined crt 32 words) ++ quoted crt word := by
  induction words with
  | nil => simp [joined, List.intercalate, separator]
  | cons first words ih =>
      cases words with
      | nil => simp [joined, List.intercalate, separator, quoted]
      | cons next words =>
          have hlong : ∀ rest, separator (quoted crt first ++ rest) = [32] := by
            intro rest
            simp [separator, quoted]
          have hmore : separator (joined crt 32 (next :: words)) = [32] := by
            cases words with
            | nil => simp [joined, List.intercalate, separator, quoted]
            | cons _ _ => simp [joined_cons_cons, separator]
          simp only [List.cons_append, joined_cons_cons, hlong] at ih ⊢
          rw [ih, hmore]
          simp

/-- The words of a line that is continued. -/
theorem spawnLine_cases (heap : Heap) (arguments : List Argument) (line : Line)
    (hline : line.Sound) (words : List (List UInt8)) (htext : line.text = joined crt 32 words) :
    (∃ next : Line, spawnLine heap arguments line = .ok next ∧
      next.text = joined crt 32 (words ++ arguments.map Argument.bytes) ∧ next.Sound) ∨
    (spawnLine heap arguments line = .error .noMemory ∧ ∃ size, heap.realloc size = false) := by
  induction arguments generalizing line words with
  | nil => exact .inl ⟨line, rfl, by simpa using htext, hline⟩
  | cons argument rest ih =>
      obtain ⟨next, hquote, hnext, hsound⟩ | ⟨hquote, hrefused⟩ :=
        tcSpawnQuote_cases heap line hline argument
      · have hwords : next.text = joined crt 32 (words ++ [argument.bytes]) := by
          rw [hnext, htext, joined_append_singleton]
        have hrest := ih next hsound (words ++ [argument.bytes]) hwords
        simpa [spawnLine, hquote, bind, Except.bind] using hrest
      · exact .inr ⟨by simp [spawnLine, hquote, bind, Except.bind], hrefused⟩

theorem processLine_eq (rest words : List (List UInt8)) (hrest : ∀ s ∈ rest, 0 ∉ s) :
    processLine rest words.length (joined crt 32 words) = joined crt 32 (words ++ rest) := by
  induction rest generalizing words with
  | nil => simp [processLine]
  | cons s rest ih =>
      have hcommand : (if words.length ≠ 0 then joined crt 32 words ++ [32]
          else joined crt 32 words) =
          joined crt 32 words ++ separator (joined crt 32 words) := by
        cases words with
        | nil => rfl
        | cons first words =>
            cases words with
            | nil => simp [joined, List.intercalate, separator, quoted]
            | cons next words => simp [joined_cons_cons, separator]
      have hnext := ih (words ++ [s]) fun t ht ↦ hrest t (List.mem_cons_of_mem s ht)
      rw [processLine, hcommand, winArg_eq _ _ (hrest s List.mem_cons_self),
        ← joined_append_singleton]
      simpa using hnext

/-- The text of one argument, in a line of any state. -/
theorem tcSpawnQuote_text (heap : Heap) (line next : Line) (argument : Argument)
    (h : tcSpawnQuote heap line argument.bytes = .ok next) :
    next.text = winArg (line.text ++ separator line.text) argument.bytes := by
  have hreserve : ∀ room, line.reserve heap argument.bytes.length = .ok room →
      room.text = line.text := by
    intro room hroom
    simp only [Line.reserve] at hroom
    by_cases hneed : line.capacity <
        (line.text.length + 3 + 2 * argument.bytes.length + 1) % 2 ^ 64
    · rw [if_pos hneed] at hroom
      split at hroom
      · cases hroom
      · split at hroom
        · cases hroom
          rfl
        · cases hroom
    · rw [if_neg hneed] at hroom
      cases hroom
      rfl
  cases hroom : line.reserve heap argument.bytes.length with
  | error => simp [tcSpawnQuote, hroom, bind, Except.bind] at h
  | ok room =>
      simp only [tcSpawnQuote, hroom, bind, Except.bind, pure, Except.pure, Except.ok.injEq,
        Line.quoteFrom_eq, hreserve room hroom] at h
      rw [← h, winArg_eq _ _ argument.noNul, separator]
      split_ifs <;> simp [Line.terminate, Line.put, hreserve room hroom, quoted, crt]

/-- `tc_spawn_quote` and `win_arg` write the same line, which splits into the arguments, and no
byte of it is written past the capacity. -/
theorem spawnLine_split (heap : Heap) (arguments : List Argument) :
    ((∃ line, spawnLine heap arguments .empty = .ok line ∧ line.overrun = false ∧
        split crt line.text = arguments.map Argument.bytes ∧
        line.text = processLine (arguments.map Argument.bytes) 0 []) ∨
      (spawnLine heap arguments .empty = .error .noMemory ∧
        ∃ size, heap.realloc size = false)) ∧
    ∀ (argument : Argument) (line next : Line),
      tcSpawnQuote heap line argument.bytes = .ok next →
      next.text = winArg (line.text ++ separator line.text) argument.bytes := by
  refine ⟨?_, fun argument line next ↦ tcSpawnQuote_text heap line next argument⟩
  obtain ⟨line, hline, htext, hsound⟩ | hrefused :=
    spawnLine_cases heap arguments .empty .empty [] rfl
  · left
    rw [List.nil_append] at htext
    refine ⟨line, hline, hsound.kept, ?_, ?_⟩
    · rw [htext, split_joined crt 32 rfl]
    · have hnul : ∀ s ∈ arguments.map Argument.bytes, 0 ∉ s := by
        intro s hs
        obtain ⟨argument, -, rfl⟩ := List.mem_map.mp hs
        exact argument.noNul
      rw [htext]
      exact (processLine_eq (arguments.map Argument.bytes) [] hnul).symm
  · exact .inr hrefused

/-- The runtime library reads the name of the program by a rule of its own, under which a name
without quotes also leaves the other arguments whole. -/
theorem spawnLine_afterProgram (heap : Heap) (program : Argument) (arguments : List Argument)
    (hprogram : 34 ∉ program.bytes) (line : Line)
    (hline : spawnLine heap (program :: arguments) .empty = .ok line) :
    split crt (afterProgram crt line.text false) = arguments.map Argument.bytes := by
  obtain ⟨next, hnext, htext, -⟩ | ⟨herror, -⟩ :=
    spawnLine_cases heap (program :: arguments) .empty .empty [] rfl
  · obtain rfl : next = line := by simpa [hnext] using hline
    rw [htext]
    exact split_afterProgram_joined crt 32 rfl program.bytes hprogram _
  · rw [herror] at hline
    cases hline

end TinyCPlus.Runtime
