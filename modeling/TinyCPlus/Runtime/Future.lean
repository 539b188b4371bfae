import TinyCPlus.Library.CondVar
import TinyCPlus.Library.Transitions

/-!
# Futures (`tc_future_*` of `concurrent.c`)

A future that any number of parties share.  A party calls a function of the
future only while it holds a reference, and a party that waits in
`tc_future_get` calls nothing.  Every section under the lock is one step, and
so is every step by which a list of continuations is delivered.  Values are
`V`, pools `P`, and an action with its argument is an `A`.  A call that reaches
a future that was freed sets `fault`.
-/

namespace TinyCPlus.Runtime

open TinyCPlus.Library

/-- A continuation; `call` tells the registrations apart. -/
structure Continuation (P A : Type*) where
  call : ℕ
  pool : Option P
  action : A
deriving DecidableEq

structure TcFuture (V P A : Type*) where
  refs : BitVec 64
  complete : Bool
  error : ℤ
  continuations : List (Continuation P A)
  data : V

/-- Continuations that `tc_future_complete` or `tc_future_then` still has to
deliver; `inline` while the action of one of them is being called. -/
structure Delivery (P A : Type*) where
  inline : Bool
  pending : List (Continuation P A)
deriving DecidableEq

inductive FutureOutcome (τ V P A : Type*) where
  | completed (t : τ) (value : V) (error : ℤ)
  | completeRefused (t : τ)
  | wasReady (t : τ) (ready : Bool)
  | got (t : τ) (value : V) (error : ℤ)
  | registered (k : Continuation P A)
  | ran (k : Continuation P A)

structure FutureSystem (τ V P A : Type*) where
  future : TcFuture V P A
  ready : CondVar τ
  holders : Multiset τ
  disposing : ℕ
  frees : ℕ
  deliveries : Multiset (Delivery P A)
  jobs : Multiset (Continuation P A)
  calls : ℕ
  history : List (FutureOutcome τ V P A)
  fault : Bool

inductive FutureEvent (τ V P A : Type*) where
  | retain (t u : τ)
  | release (t : τ)
  | dispose
  | complete (t : τ) (value : Option V) (error : ℤ)
  | ready (t : τ)
  | get (t : τ)
  | getAgain (t : τ)
  | thenDo (t : τ) (allocated : Bool) (pool : Option P) (action : A)
  | deliver (d : Delivery P A) (accepted : Bool)
  | actionReturns (d : Delivery P A)
  | runJob (k : Continuation P A)
  | wake (t : τ)

namespace FutureSystem

variable {τ V P A : Type*}

/-- `tc_future_create`, called by `t`; `zero` are the bytes that `calloc` gives. -/
def create (t : τ) (zero : V) : FutureSystem τ V P A :=
  ⟨⟨1, false, 0, [], zero⟩, .empty, {t}, 0, 0, 0, 0, 0, [], false⟩

def record (s : FutureSystem τ V P A) (x : FutureOutcome τ V P A) : FutureSystem τ V P A :=
  { s with history := s.history ++ [x] }

/-- An access to the future. -/
def touch (s : FutureSystem τ V P A) : FutureSystem τ V P A :=
  if s.frees = 0 then s else { s with fault := true }

/-- `tc_future_retain`; the reference is for `u`. -/
def retain (s : FutureSystem τ V P A) (u : τ) : FutureSystem τ V P A :=
  { s with future := { s.future with refs := s.future.refs + 1 }, holders := u ::ₘ s.holders }

/-- The rest of `tc_future_release` when no reference is left. -/
def dispose (s : FutureSystem τ V P A) : FutureSystem τ V P A :=
  { s with disposing := s.disposing - 1, frees := s.frees + 1 }

/-- `tc_future_complete` up to the loop. -/
def complete (s : FutureSystem τ V P A) (t : τ) (value : Option V) (error : ℤ) :
    FutureSystem τ V P A :=
  if s.future.complete then s.record (.completeRefused t)
  else
    let data := value.getD s.future.data
    { s with
      future :=
        { s.future with complete := true, error := error, continuations := [], data := data }
      ready := s.ready.broadcast
      deliveries := ⟨false, s.future.continuations⟩ ::ₘ s.deliveries }.record
        (.completed t data error)

/-- `tc_future_get` from the loop condition on. -/
def get (s : FutureSystem τ V P A) (t : τ) : FutureSystem τ V P A :=
  if s.future.complete then s.record (.got t s.future.data s.future.error)
  else { s with ready := s.ready.wait t }

/-- `tc_future_then` with an allocated continuation. -/
def thenDo (s : FutureSystem τ V P A) (pool : Option P) (action : A) : FutureSystem τ V P A :=
  let k : Continuation P A := ⟨s.calls, pool, action⟩
  if s.future.complete then
    { s with deliveries := ⟨false, [k]⟩ ::ₘ s.deliveries, calls := s.calls + 1 }.record
      (.registered k)
  else
    { s with
      future := { s.future with continuations := k :: s.future.continuations }
      calls := s.calls + 1 }.record (.registered k)

variable [DecidableEq τ]

/-- `tc_future_release` up to the end of the section. -/
def release (s : FutureSystem τ V P A) (t : τ) : FutureSystem τ V P A :=
  let refs := s.future.refs - 1
  { s with
    future := { s.future with refs := refs }
    holders := s.holders.erase t
    disposing := if refs = 0 then s.disposing + 1 else s.disposing }

/-- A party that holds a reference and does not wait. -/
def MayCall (s : FutureSystem τ V P A) (t : τ) : Prop :=
  t ∈ s.holders ∧ t ∉ s.ready.waiting + s.ready.woken

instance (s : FutureSystem τ V P A) (t : τ) : Decidable (s.MayCall t) :=
  inferInstanceAs (Decidable (_ ∧ _))

variable [DecidableEq P] [DecidableEq A]

/-- One round of the loop that delivers continuations; `accepted` tells whether
`tc_pool_submit` returned 0. -/
def deliver (s : FutureSystem τ V P A) (d : Delivery P A) (accepted : Bool) :
    Option (FutureSystem τ V P A) :=
  match d with
  | ⟨false, k :: rest⟩ =>
      let deliveries := s.deliveries.erase d
      if k.pool.isSome && accepted then
        some { s with deliveries := ⟨false, rest⟩ ::ₘ deliveries, jobs := k ::ₘ s.jobs }
      else some ({ s with deliveries := ⟨true, rest⟩ ::ₘ deliveries }.record (.ran k))
  | ⟨false, []⟩ | ⟨true, _⟩ => none

/-- The steps of the system.  A reference is kept somewhere, so that there are
fewer than `2 ^ 64` of them. -/
def transitions (τ V P A : Type*) [DecidableEq τ] [DecidableEq P] [DecidableEq A] :
    Transitions (FutureSystem τ V P A) (FutureEvent τ V P A) where
  step s
    | .retain t u =>
        if s.MayCall t ∧ s.holders.card + 1 < 2 ^ 64 then some (s.touch.retain u) else none
    | .release t => if s.MayCall t then some (s.touch.release t) else none
    | .dispose => if s.disposing = 0 then none else some s.touch.dispose
    | .complete t value error =>
        if s.MayCall t then some (s.touch.complete t value error) else none
    | .ready t =>
        if s.MayCall t then some (s.touch.record (.wasReady t s.future.complete)) else none
    | .get t => if s.MayCall t then some (s.touch.get t) else none
    | .getAgain t =>
        (s.ready.resume t).map fun ready ↦ { s with ready := ready }.touch.get t
    | .thenDo t allocated pool action =>
        if s.MayCall t then some (if allocated then s.touch.thenDo pool action else s) else none
    | .deliver d accepted => if d ∈ s.deliveries then s.deliver d accepted else none
    | .actionReturns d =>
        if d ∈ s.deliveries ∧ d.inline = true then
          some { s with deliveries := ⟨false, d.pending⟩ ::ₘ s.deliveries.erase d }
        else none
    | .runJob k =>
        if k ∈ s.jobs then some ({ s with jobs := s.jobs.erase k }.record (.ran k)) else none
    | .wake t => (s.ready.spurious t).map fun ready ↦ { s with ready := ready }

end FutureSystem

end TinyCPlus.Runtime
