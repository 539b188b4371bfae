import Mathlib

/-!
# Calls

`check_expr` leaves a symbol, a member and a type on the callee of a call, and `expression` chooses
the form of the call in C by them.  What a callee denotes is a function of the C program, with the
object or the environment that it gets first.
-/

namespace TinyCPlus.Compiler.Calls

/-! ## Callees and what the checker knows of their names -/

/-- A function, method or lambda: its name in C and `NF_STATIC`. -/
structure FunctionDecl where
  name : String
  cname : String
  isStatic : Bool
deriving DecidableEq, Repr

/-- A function or closure type, with the declaration that it is the type of. -/
structure FunctionType where
  isClosure : Bool
  decl : Option FunctionDecl
deriving DecidableEq, Repr

/-- A member of a class or interface. -/
inductive Member where
  | method (f : FunctionDecl)
  | interfaceMethod (f : FunctionDecl)
  | field (isStatic : Bool) (isClosure : Bool)
  | property (isComputed : Bool) (isClosure : Bool)
deriving DecidableEq, Repr

/-- The declaration of a symbol; a variable of a function around a lambda is captured. -/
inductive Symbol where
  | function (f : FunctionDecl)
  | variable (cname : String) (captured : Option ℕ) (type : FunctionType)
deriving DecidableEq, Repr

/-- The object in front of a member: an expression of a class or interface (a variable, a field, an
element), what a call returns, a pointer to a class or interface, or the name of one. -/
inductive Object where
  | value (e : ℕ)
  | result (e : ℕ)
  | pointer (e : ℕ)
  | className
deriving DecidableEq, Repr

/-- A callee.  The other forms are lambdas, elements and dereferenced pointers. -/
inductive Callee where
  | name (x : String)
  | member (o : Object) (m : String)
  | other (e : ℕ) (type : FunctionType)
deriving DecidableEq, Repr

/-- What the names of a call are at its place. -/
structure Names where
  symbol : String → Option Symbol
  /-- The members of the class around the call. -/
  own : String → Option Member
  /-- The members of the type of an object. -/
  memberOf : Object → String → Option Member

/-! ## The checker -/

/-- The annotations of a callee. -/
structure CalleeNode where
  callee : Callee
  sym : Option Symbol
  resolved : Option Member
  type : FunctionType
deriving DecidableEq, Repr

def Symbol.type : Symbol → FunctionType
  | .function f => ⟨false, some f⟩
  | .variable _ _ type => type

def Member.type : Member → FunctionType
  | .method f | .interfaceMethod f => ⟨false, some f⟩
  | .field _ isClosure | .property _ isClosure => ⟨isClosure, none⟩

def Member.isFunction : Member → Bool
  | .method _ | .interfaceMethod _ => true
  | _ => false

def Member.isStatic : Member → Bool
  | .method f | .interfaceMethod f => f.isStatic
  | .field isStatic _ => isStatic
  | .property _ _ => false

/-- `check_expr` of a callee; none where it is rejected. -/
def checkCallee (N : Names) : Callee → Option CalleeNode
  | .name x =>
      match N.symbol x with
      | some s => some ⟨.name x, some s, none, s.type⟩
      | none => (N.own x).map fun m ↦ ⟨.name x, none, some m, m.type⟩
  | .member o m =>
      match N.memberOf o m with
      | none => none
      | some member =>
          if o = .className ∧ member.isFunction ∧ ¬ member.isStatic then none
          else some ⟨.member o m, none, some member, member.type⟩
  | .other e type => some ⟨.other e type, none, none, type⟩

/-! ## The generator -/

/-- An expression of C that gives a function or a closure. -/
inductive CValue where
  | function (cname : String)
  | variable (cname : String)
  | captured (id : ℕ)
  | selfField (name : String)
  | selfGetter (name : String)
  | field (o : Object) (name : String)
  | getter (o : Object) (name : String)
  | other (e : ℕ)
deriving DecidableEq, Repr

inductive Receiver where
  | self
  | object (o : Object)
deriving DecidableEq, Repr

/-- The forms of a call in C, without the arguments. -/
inductive CCall where
  | invoke (f : CValue)
  | vtable (o : Object) (m : String)
  | call (f : CValue) (receiver : Option Receiver)
deriving DecidableEq, Repr

/-- `value` of a callee. -/
def CalleeNode.value (n : CalleeNode) : CValue :=
  match n.callee with
  | .name x =>
      match n.sym, n.resolved with
      | some (.function f), _ => .function f.cname
      | some (.variable cname none _), _ => .variable cname
      | some (.variable _ (some id) _), _ => .captured id
      | none, some (.property true _) => .selfGetter x
      | none, some (.method f) | none, some (.interfaceMethod f) => .function f.cname
      | none, _ => .selfField x
  | .member o m =>
      match n.resolved with
      | some (.property true _) => .getter o m
      | _ => .field o m
  | .other e _ => .other e

/-- What the generator puts in front of the arguments. -/
def CalleeNode.receiver (n : CalleeNode) : Option Receiver :=
  match n.callee, n.resolved with
  | .member o _, some member => if member.isStatic then none else some (.object o)
  | .name _, some (.method f) => if f.isStatic then none else some .self
  | _, _ => none

def CalleeNode.namesFunction (n : CalleeNode) : Bool :=
  match n.sym with
  | some (.function _) => true
  | _ => false

/-- The call of a callee that is no closure and no interface method. -/
def CalleeNode.plainCall (n : CalleeNode) : CCall :=
  match n.type.decl with
  | some f =>
      if n.namesFunction || n.resolved.isSome then .call (.function f.cname) n.receiver
      else .call n.value n.receiver
  | none => .call n.value n.receiver

/-- The call of a callee. -/
def CalleeNode.call (n : CalleeNode) : CCall :=
  if n.type.isClosure then .invoke n.value
  else
    match n.callee, n.resolved with
    | .member o _, some (.interfaceMethod f) => .vtable o f.name
    | _, _ => n.plainCall

/-! ## What a call does -/

/-- A value that can be called. -/
inductive Callable where
  | function (code : String)
  | closure (environment : ℕ) (code : String)
deriving DecidableEq

/-- What a function gets in front of the arguments. -/
inductive Extra where
  | address (object : ℕ)
  | environment (e : ℕ)
deriving DecidableEq

/-- What the expressions and variables hold when a call is made. -/
structure State where
  /-- `tc_self`, which a static method does not have. -/
  self : Option ℕ
  /-- Where the object of an expression is, or the pointer that it gives. -/
  address : ℕ → ℕ
  /-- The object and the vtable of an interface expression. -/
  interface : ℕ → ℕ × (String → String)
  held : String → Option Callable
  captures : ℕ → Option Callable
  fields : ℕ → String → Option Callable
  /-- The results of the computed properties. -/
  getters : ℕ → String → Option Callable
  others : ℕ → Option Callable

def Object.address (s : State) : Object → Option ℕ
  | .value e | .result e | .pointer e => some (s.address e)
  | .className => none

/-- `object_pointer`: there is no `&` of what a call returns. -/
def Object.pointerIn (s : State) : Object → Option ℕ
  | .result _ => none
  | o => o.address s

def CValue.eval (s : State) : CValue → Option Callable
  | .function cname => some (.function cname)
  | .variable cname => s.held cname
  | .captured id => s.captures id
  | .selfField m => s.self.bind fun a ↦ s.fields a m
  | .selfGetter m => s.self.bind fun a ↦ s.getters a m
  | .field o m => (o.address s).bind fun a ↦ s.fields a m
  | .getter o m => (o.pointerIn s).bind fun a ↦ s.getters a m
  | .other e => s.others e

def Receiver.eval (s : State) : Receiver → Option Extra
  | .self => s.self.map .address
  | .object o => (o.pointerIn s).map .address

/-- The function that a call in C runs, with what it gets in front of the arguments; a pointer has
no `vtable`. -/
def CCall.runs (s : State) : CCall → Option (String × List Extra)
  | .invoke f =>
      match f.eval s with
      | some (.closure environment code) => some (code, [.environment environment])
      | _ => none
  | .vtable (.value e) m | .vtable (.result e) m =>
      some ((s.interface e).2 m, [.address (s.interface e).1])
  | .vtable _ _ => none
  | .call f receiver =>
      match f.eval s, receiver with
      | some (.function code), none => some (code, [])
      | some (.function code), some r => (r.eval s).map fun extra ↦ (code, [extra])
      | _, _ => none

/-! ## What a callee denotes -/

/-- A function pointer or closure of the given type. -/
def called (isClosure : Bool) : Option Callable → Option (String × List Extra)
  | some (.function code) => if isClosure then none else some (code, [])
  | some (.closure environment code) =>
      if isClosure then some (code, [.environment environment]) else none
  | none => none

/-- A method on an object. -/
def FunctionDecl.on (f : FunctionDecl) (object : Option ℕ) : Option (String × List Extra) :=
  if f.isStatic then some (f.cname, []) else object.map fun a ↦ (f.cname, [.address a])

/-- The function that a member of an object denotes, with the object of a method that is not static
or of an interface method, or the environment of a closure. -/
def Member.denotes (s : State) (o : Object) (m : String) : Member → Option (String × List Extra)
  | .method f => f.on (o.address s)
  | .interfaceMethod f =>
      match o with
      | .value e | .result e | .pointer e =>
          some ((s.interface e).2 f.name, [.address (s.interface e).1])
      | .className => none
  | .field _ isClosure => called isClosure ((o.address s).bind fun a ↦ s.fields a m)
  | .property isComputed isClosure =>
      called isClosure ((o.address s).bind fun a ↦
        if isComputed then s.getters a m else s.fields a m)

/-- The function that a member denotes when it is named inside its class. -/
def Member.denotesOwn (s : State) (m : String) : Member → Option (String × List Extra)
  | .method f | .interfaceMethod f => f.on s.self
  | .field _ isClosure => called isClosure (s.self.bind fun a ↦ s.fields a m)
  | .property isComputed isClosure =>
      called isClosure (s.self.bind fun a ↦ if isComputed then s.getters a m else s.fields a m)

def Symbol.denotes (s : State) : Symbol → Option (String × List Extra)
  | .function f => some (f.cname, [])
  | .variable cname none type => called type.isClosure (s.held cname)
  | .variable _ (some id) type => called type.isClosure (s.captures id)

/-- The function that a callee denotes. -/
def Callee.denotes (N : Names) (s : State) : Callee → Option (String × List Extra)
  | .name x =>
      match N.symbol x with
      | some symbol => symbol.denotes s
      | none => (N.own x).bind fun member ↦ member.denotesOwn s x
  | .member o m => (N.memberOf o m).bind fun member ↦ member.denotes s o m
  | .other e type => called type.isClosure (s.others e)

/-- The class around a call is no interface: the bodies of interfaces are not checked. -/
def Names.InClass (N : Names) : Prop :=
  ∀ x f, N.own x ≠ some (.interfaceMethod f)

/-- The member of an object is called right: no function pointer in a field or property, no
interface method through a pointer, and no `&` of what a call returns. -/
def Member.Supported (o : Object) : Member → Prop
  | .method f => f.isStatic ∨ ∀ e, o ≠ .result e
  | .interfaceMethod _ => ∀ e, o ≠ .pointer e
  | .field isStatic isClosure => o = .className ∨ isClosure ∨ isStatic
  | .property isComputed isClosure =>
      o = .className ∨ isClosure ∧ (isComputed → ∀ e, o ≠ .result e)

def Callee.Supported (N : Names) : Callee → Prop
  | .member o m => ∀ member, N.memberOf o m = some member → member.Supported o
  | _ => True

/-! ## The calls that the generator makes -/

@[simp] theorem runs_invoke (s : State) (f : CValue) :
    (CCall.invoke f).runs s = called true (f.eval s) := by
  cases h : f.eval s with
  | none => simp [CCall.runs, h, called]
  | some v => cases v <;> simp [CCall.runs, h, called]

@[simp] theorem runs_call (s : State) (f : CValue) :
    (CCall.call f none).runs s = called false (f.eval s) := by
  cases h : f.eval s with
  | none => simp [CCall.runs, h, called]
  | some v => cases v <;> simp [CCall.runs, h, called]

/-- A call of a function of the program with a receiver. -/
@[simp] theorem runs_receiver (s : State) (cname : String) (r : Receiver) :
    (CCall.call (.function cname) (some r)).runs s
      = (r.eval s).map fun extra ↦ (cname, [extra]) :=
  rfl

/-- A function, variable or captured variable is called without an object. -/
theorem symbol_runs (s : State) (x : String) (symbol : Symbol) :
    (⟨.name x, some symbol, none, symbol.type⟩ : CalleeNode).call.runs s
      = symbol.denotes s := by
  cases symbol with
  | function f =>
      simp [CalleeNode.call, CalleeNode.plainCall, CalleeNode.namesFunction, CalleeNode.receiver,
        Symbol.type, Symbol.denotes, CValue.eval, called]
  | «variable» cname captured type =>
      obtain ⟨isClosure, decl⟩ := type
      cases captured <;> cases isClosure <;> cases decl <;>
        simp [CalleeNode.call, CalleeNode.plainCall, CalleeNode.namesFunction,
          CalleeNode.receiver, CalleeNode.value, Symbol.type, Symbol.denotes, CValue.eval]

/-- A member named inside its class is called on `tc_self` if it is a method that is not static. -/
theorem own_runs (s : State) (x : String) {member : Member}
    (hm : ∀ f, member ≠ .interfaceMethod f) :
    (⟨.name x, none, some member, member.type⟩ : CalleeNode).call.runs s
      = member.denotesOwn s x := by
  cases member with
  | method f =>
      cases h : f.isStatic <;>
        simp [CalleeNode.call, CalleeNode.plainCall, CalleeNode.receiver, Member.type,
          Member.denotesOwn, FunctionDecl.on, CValue.eval, Receiver.eval, called, h,
          Function.comp_def]
  | interfaceMethod f => exact absurd rfl (hm f)
  | field isStatic isClosure =>
      cases isClosure <;>
        simp [CalleeNode.call, CalleeNode.plainCall, CalleeNode.receiver, CalleeNode.value,
          Member.type, Member.denotesOwn, CValue.eval]
  | property isComputed isClosure =>
      cases isComputed <;> cases isClosure <;>
        simp [CalleeNode.call, CalleeNode.plainCall, CalleeNode.receiver, CalleeNode.value,
          Member.type, Member.denotesOwn, CValue.eval]

/-! ## The members of an object -/

/-- The state in which everything that can be called holds `v`. -/
def State.holding (v : Callable) : State where
  self := none
  address e := e
  interface e := (e, id)
  held _ := some v
  captures _ := some v
  fields _ _ := some v
  getters _ _ := some v
  others _ := some v

/-- The callee node of a member of an object. -/
def Member.node (o : Object) (m : String) (member : Member) : CalleeNode :=
  ⟨.member o m, none, some member, member.type⟩

theorem method_runs (o : Object) (m : String) (f : FunctionDecl) :
    (∀ s, ((Member.method f).node o m).call.runs s = (Member.method f).denotes s o m) ↔
      (Member.method f).Supported o := by
  cases h : f.isStatic with
  | true =>
      simp [Member.node, CalleeNode.call, CalleeNode.plainCall, CalleeNode.receiver, Member.type,
        Member.isStatic, Member.denotes, Member.Supported, FunctionDecl.on, CValue.eval, called, h]
  | false =>
      cases o <;>
        simp [Member.node, CalleeNode.call, CalleeNode.plainCall, CalleeNode.receiver,
          Member.type, Member.isStatic, Member.denotes, Member.Supported, FunctionDecl.on,
          Receiver.eval, Object.pointerIn, Object.address, h]
      exact ⟨State.holding (.function f.cname)⟩

theorem interfaceMethod_runs (o : Object) (m : String) (f : FunctionDecl) :
    (∀ s, ((Member.interfaceMethod f).node o m).call.runs s
        = (Member.interfaceMethod f).denotes s o m) ↔
      (Member.interfaceMethod f).Supported o := by
  cases o <;>
    simp [Member.node, CalleeNode.call, Member.type, Member.denotes, Member.Supported, CCall.runs]
  exact ⟨State.holding (.function f.cname)⟩

/-- What is called with a receiver gets it. -/
theorem receiver_passed (s : State) (f : CValue) (r : Receiver) (code : String) :
    (CCall.call f (some r)).runs s ≠ some (code, []) := by
  cases hf : f.eval s with
  | none => simp [CCall.runs, hf]
  | some v => cases v <;> simp [CCall.runs, hf]

/-- A function pointer in a field that is not static gets the object. -/
theorem field_runs (o : Object) (m : String) (isStatic isClosure : Bool) :
    (∀ s, ((Member.field isStatic isClosure).node o m).call.runs s
        = (Member.field isStatic isClosure).denotes s o m) ↔
      (Member.field isStatic isClosure).Supported o := by
  have spurious : ∀ e, o = .value e ∨ o = .result e ∨ o = .pointer e →
      ∃ s, ((Member.field false false).node o m).call.runs s
        ≠ (Member.field false false).denotes s o m := by
    rintro e (rfl | rfl | rfl)
    all_goals exact ⟨.holding (.function m), receiver_passed _ _ _ m⟩
  cases isClosure <;> cases isStatic
  case false.false =>
    cases o with
    | className => simp [Member.Supported, Member.node, CalleeNode.call, CalleeNode.plainCall,
        CalleeNode.receiver, CalleeNode.value, Member.type, Member.isStatic, Member.denotes,
        CCall.runs, CValue.eval, Object.address, called]
    | value e => simpa [Member.Supported] using spurious e (by simp)
    | result e => simpa [Member.Supported] using spurious e (by simp)
    | pointer e => simpa [Member.Supported] using spurious e (by simp)
  all_goals
    simp [Member.node, CalleeNode.call, CalleeNode.plainCall, CalleeNode.receiver,
      CalleeNode.value, Member.type, Member.isStatic, Member.denotes, Member.Supported,
      CValue.eval]

/-- A function pointer in a property gets the object. -/
theorem property_pointer_runs (o : Object) (m : String) (isComputed : Bool) :
    (∀ s, ((Member.property isComputed false).node o m).call.runs s
        = (Member.property isComputed false).denotes s o m) ↔
      (Member.property isComputed false).Supported o := by
  have spurious : ∀ e, o = .value e ∨ o = .result e ∨ o = .pointer e →
      ∃ s, ((Member.property isComputed false).node o m).call.runs s
        ≠ (Member.property isComputed false).denotes s o m := by
    rintro e (rfl | rfl | rfl)
    all_goals
      cases isComputed
      · exact ⟨.holding (.function m), receiver_passed _ _ _ m⟩
      · exact ⟨.holding (.function m), receiver_passed _ _ _ m⟩
  cases o with
  | className =>
      cases isComputed <;>
        simp [Member.Supported, Member.node, CalleeNode.call, CalleeNode.plainCall,
          CalleeNode.receiver, CalleeNode.value, Member.type, Member.isStatic, Member.denotes,
          CCall.runs, CValue.eval, Object.address, Object.pointerIn, called]
  | value e => simpa [Member.Supported] using spurious e (by simp)
  | result e => simpa [Member.Supported] using spurious e (by simp)
  | pointer e => simpa [Member.Supported] using spurious e (by simp)

/-- The getter of a closure gets a pointer to the object. -/
theorem property_closure_runs (o : Object) (m : String) (isComputed : Bool) :
    (∀ s, ((Member.property isComputed true).node o m).call.runs s
        = (Member.property isComputed true).denotes s o m) ↔
      (Member.property isComputed true).Supported o := by
  cases isComputed with
  | false =>
      simp [Member.node, CalleeNode.call, CalleeNode.value, Member.type, Member.denotes,
        Member.Supported, CValue.eval]
  | true =>
      cases o <;>
        simp [Member.node, CalleeNode.call, CalleeNode.value, Member.type, Member.denotes,
          Member.Supported, CValue.eval, Object.address, Object.pointerIn]
      exact ⟨.holding (.closure 0 m), nofun⟩

/-! ## The calls of a program -/

/-- The call of a member runs what the member denotes exactly when the member is supported. -/
theorem member_runs (o : Object) (m : String) (member : Member) :
    (∀ s, (member.node o m).call.runs s = member.denotes s o m) ↔ member.Supported o := by
  cases member with
  | method f => exact method_runs o m f
  | interfaceMethod f => exact interfaceMethod_runs o m f
  | field isStatic isClosure => exact field_runs o m isStatic isClosure
  | property isComputed isClosure =>
      cases isClosure with
      | false => exact property_pointer_runs o m isComputed
      | true => exact property_closure_runs o m isComputed

/-- What the checker leaves on a member of an object. -/
theorem checkCallee_member {N : Names} {o : Object} {m : String} {n : CalleeNode}
    (h : checkCallee N (.member o m) = some n) :
    ∃ member, N.memberOf o m = some member ∧ n = member.node o m := by
  simp only [checkCallee] at h
  split at h
  · cases h
  next member hm =>
    split at h
    · cases h
    · exact ⟨member, hm, (Option.some.inj h).symm⟩

/-- The names of a call that are not members of an object are called right. -/
theorem name_runs {N : Names} (hN : N.InClass) {x : String} {n : CalleeNode}
    (h : checkCallee N (.name x) = some n) (s : State) :
    n.call.runs s = (Callee.name x).denotes N s := by
  simp only [checkCallee] at h
  split at h
  next symbol hs =>
    obtain rfl := (Option.some.inj h).symm
    simp only [Callee.denotes, hs]
    exact symbol_runs s x symbol
  next hs =>
    obtain ⟨member, hm, rfl⟩ := Option.map_eq_some_iff.mp h
    simp only [Callee.denotes, hs, hm, Option.bind_some]
    exact own_runs s x fun f hf ↦ hN x f (hf ▸ hm)

theorem other_runs {N : Names} {e : ℕ} {type : FunctionType} {n : CalleeNode}
    (h : checkCallee N (.other e type) = some n) (s : State) :
    n.call.runs s = (Callee.other e type).denotes N s := by
  obtain rfl := (Option.some.inj h).symm
  obtain ⟨isClosure, decl⟩ := type
  cases isClosure <;> cases decl <;>
    simp [CalleeNode.call, CalleeNode.plainCall, CalleeNode.namesFunction, CalleeNode.receiver,
      CalleeNode.value, Callee.denotes, CValue.eval]

/-- The names of `class C { func<int(int)> f; }` with a method of an object. -/
def Names.handler : Names where
  symbol _ := none
  own _ := none
  memberOf _ m :=
    if m = "f" then some (.field false false)
    else if m = "run" then some (.method ⟨"run", "tc_C_run", false⟩)
    else none

theorem handler_inClass : Names.handler.InClass := nofun

end TinyCPlus.Compiler.Calls
