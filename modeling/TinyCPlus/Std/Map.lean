import TinyCPlus.Library.FiniteMap
import TinyCPlus.Library.Probe

/-!
# `Map<K, V>` of `std/collections.tc`

An open-addressing hash table with linear probing and tombstones.  The three
arrays are lists, slot states are 0 (never used), 1 (live) and 2 (removed),
and `u64` arithmetic wraps.  A failed assertion or allocation ends the
program, so the methods that can fail return an `Except`; the unbounded loops
carry fuel and report when it runs out.
-/

namespace TinyCPlus.Std

open TinyCPlus.Library

/-- The value of a `u64` computation. -/
def u64 (n : ℕ) : ℕ := n % 2 ^ 64

/-- `n - 1` in `u64`. -/
def u64Pred (n : ℕ) : ℕ := u64 (n + (2 ^ 64 - 1))

inductive Failure where
  | assertion
  | allocation
  | nontermination
deriving DecidableEq, Repr

/-- The allocator and the element sizes a map is instantiated with. -/
structure Heap where
  sizeofK : ℕ
  sizeofV : ℕ
  calloc : ℕ → ℕ → Bool

structure Map (K V : Type) where
  keyData : List K
  valueData : List V
  stateData : List UInt8
  length : ℕ
  capacity : ℕ
  tombstones : ℕ
deriving DecidableEq, Repr

namespace Map

variable {K V : Type} [Inhabited K] [Inhabited V] [BEq K]

def create : Map K V := ⟨[], [], [], 0, 0, 0⟩

def state (m : Map K V) (index : ℕ) : UInt8 := m.stateData.getD index 0

def key (m : Map K V) (index : ℕ) : K := m.keyData.getD index default

def value (m : Map K V) (index : ℕ) : V := m.valueData.getD index default

/-- The `for` loop of `find`, with the number of probes that remain. -/
def findLoop (m : Map K V) (key : K) (mask : ℕ) : ℕ → ℕ → ℕ
  | 0, _ => m.capacity
  | n + 1, index =>
      if m.state index == 0 then m.capacity
      else if m.state index == 1 && m.key index == key then index
      else findLoop m key mask n (u64 (index + 1) &&& mask)

def find (hash : K → UInt64) (m : Map K V) (key : K) : ℕ :=
  if m.length = 0 then m.capacity
  else
    let mask := u64Pred m.capacity
    m.findLoop key mask m.capacity ((hash key).toNat &&& mask)

/-- `while (stateData[index] == 1) index = (index + 1) & mask;` -/
def insertLoop (m : Map K V) (mask : ℕ) : ℕ → ℕ → Option ℕ :=
  probeLoop (fun index ↦ u64 (index + 1) &&& mask) (fun index ↦ m.state index != 1)

def insert (hash : K → UInt64) (m : Map K V) (key : K) (value : V) :
    Except Failure (Map K V) :=
  let mask := u64Pred m.capacity
  match m.insertLoop mask m.capacity ((hash key).toNat &&& mask) with
  | none => .error .nontermination
  | some index => .ok
      { m with
        tombstones :=
          if m.state index == 2 then u64Pred m.tombstones else m.tombstones
        keyData := m.keyData.set index key
        valueData := m.valueData.set index value
        stateData := m.stateData.set index 1
        length := u64 (m.length + 1) }

/-- Whether the three `calloc` calls of `rehash` and the size checks before
them succeed. -/
def allocates (heap : Heap) (next : ℕ) : Bool :=
  next ≤ 18446744073709551615 / heap.sizeofK &&
    next ≤ 18446744073709551615 / heap.sizeofV &&
      heap.calloc next heap.sizeofK && heap.calloc next heap.sizeofV &&
        heap.calloc next 1

/-- The zeroed table `rehash` moves the entries to. -/
def cleared (next : ℕ) : Map K V where
  keyData := List.replicate next default
  valueData := List.replicate next default
  stateData := List.replicate next 0
  length := 0
  capacity := next
  tombstones := 0

def rehash (hash : K → UInt64) (heap : Heap) (m : Map K V) (next : ℕ) :
    Except Failure (Map K V) :=
  if allocates heap next then
    (List.range m.capacity).foldlM
      (fun table i ↦
        if m.state i == 1 then table.insert hash (m.key i) (m.value i)
        else .ok table)
      (cleared next)
  else .error .allocation

/-- `while ((length + 1) * 2 > next) { assert(...); next = next * 2; }` -/
def growLoop (wanted : ℕ) : ℕ → ℕ → Except Failure ℕ
  | 0, _ => .error .nontermination
  | fuel + 1, next =>
      if next < wanted then
        if next ≤ 4611686018427387904 then growLoop wanted fuel (u64 (next * 2))
        else .error .assertion
      else .ok next

/-- A `u64` doubles at most 64 times, so 65 turns are enough (`growLoop_eq`). -/
def grow (hash : K → UInt64) (heap : Heap) (m : Map K V) :
    Except Failure (Map K V) :=
  if u64 (m.capacity * 3) < u64 (u64 (u64 (m.length + m.tombstones) + 1) * 4) then do
    let next := if m.capacity < 16 then 16 else m.capacity
    let next ← growLoop (u64 (u64 (m.length + 1) * 2)) 65 next
    m.rehash hash heap next
  else .ok m

def put (hash : K → UInt64) (heap : Heap) (m : Map K V) (key : K) (value : V) :
    Except Failure (Map K V × Bool) :=
  let found := m.find hash key
  if found < m.capacity then
    .ok ({ m with valueData := m.valueData.set found value }, false)
  else do
    let m ← m.grow hash heap
    let m ← m.insert hash key value
    .ok (m, true)

def get (hash : K → UInt64) (m : Map K V) (key : K) : V × Bool :=
  let found := m.find hash key
  if found < m.capacity then (m.value found, true) else (default, false)

def getOr (hash : K → UInt64) (m : Map K V) (key : K) (fallback : V) : V :=
  let found := m.find hash key
  if found < m.capacity then m.value found else fallback

def contains (hash : K → UInt64) (m : Map K V) (key : K) : Bool :=
  m.find hash key < m.capacity

def remove (hash : K → UInt64) (m : Map K V) (key : K) : Map K V × Bool :=
  let found := m.find hash key
  if m.capacity ≤ found then (m, false)
  else
    ({ m with
        keyData := m.keyData.set found default
        valueData := m.valueData.set found default
        stateData := m.stateData.set found 2
        length := u64Pred m.length
        tombstones := u64 (m.tombstones + 1) }, true)

/-- The loop of `keys`, pushing onto the destination array. -/
def keys (m : Map K V) (destination : List K) : List K :=
  (List.range m.capacity).foldl
    (fun destination i ↦
      if m.state i == 1 then destination ++ [m.key i] else destination)
    destination

def values (m : Map K V) (destination : List V) : List V :=
  (List.range m.capacity).foldl
    (fun destination i ↦
      if m.state i == 1 then destination ++ [m.value i] else destination)
    destination

def clear (m : Map K V) : Map K V :=
  { m with
    stateData := (List.range m.capacity).foldl (fun states i ↦ states.set i 0)
      m.stateData
    length := 0
    tombstones := 0 }

end Map

/-! ## Runs -/

inductive MapOp (K V : Type) where
  | put (key : K) (value : V)
  | get (key : K)
  | getOr (key : K) (fallback : V)
  | contains (key : K)
  | remove (key : K)
  | keys (destination : List K)
  | values (destination : List V)
  | clear

inductive MapAnswer (K V : Type) where
  | flag (value : Bool)
  | found (value : V) (present : Bool)
  | value (value : V)
  | keys (destination : List K)
  | values (destination : List V)
  | done
deriving DecidableEq, Repr

namespace Map

variable {K V : Type} [Inhabited K] [Inhabited V] [BEq K]

/-- One call of a method. -/
def apply (hash : K → UInt64) (heap : Heap) (m : Map K V) :
    MapOp K V → Except Failure (Map K V × MapAnswer K V)
  | .put key value =>
      (m.put hash heap key value).map fun r ↦ (r.1, .flag r.2)
  | .get key => .ok (m, .found (m.get hash key).1 (m.get hash key).2)
  | .getOr key fallback => .ok (m, .value (m.getOr hash key fallback))
  | .contains key => .ok (m, .flag (m.contains hash key))
  | .remove key => .ok ((m.remove hash key).1, .flag (m.remove hash key).2)
  | .keys destination => .ok (m, .keys (m.keys destination))
  | .values destination => .ok (m, .values (m.values destination))
  | .clear => .ok (m.clear, .done)

/-- A sequence of calls: the map after them, and their answers. -/
def run (hash : K → UInt64) (heap : Heap) (m : Map K V) :
    List (MapOp K V) → Except Failure (Map K V × List (MapAnswer K V))
  | [] => .ok (m, [])
  | op :: rest => do
      let (m, answer) ← m.apply hash heap op
      let (m, answers) ← run hash heap m rest
      .ok (m, answer :: answers)

end Map

end TinyCPlus.Std
