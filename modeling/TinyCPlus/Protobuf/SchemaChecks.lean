import Mathlib.Data.List.Nodup
import TinyCPlus.Protobuf.SchemaParser

/-!
# What holds of a schema that was read

Types, fields, values and rpcs are checked against the ones before them when they are added.
-/

namespace TinyCPlus.Protobuf.Proto

variable {Path : Type}

/-! ## Sound schemas -/

/-- What holds of the fields of each message. -/
structure SoundFields (fields : List Field) : Prop where
  distinct : (fields.map Field.name).Nodup
  notReserved : ∀ f ∈ fields, f.name ∉ reserved
  notHas : ∀ f ∈ fields, ¬"has_".toList <+: f.name

def Definition.Sound : Definition → Prop
  | message _ _ fields => SoundFields fields
  | enum _ _ values => (values.map Prod.fst).Nodup

structure Schema.Sound (schema : Schema Path) : Prop where
  names : (schema.types.map Definition.name).Nodup
  types : ∀ t ∈ schema.types, t.Sound
  services : ∀ s ∈ schema.services, (s.methods.map Method.name).Nodup

abbrev Keeps {α : Type} (p : Parser Path α) (Q : α → Prop) : Prop :=
  Library.Ensures (fun input ↦ input.schema.Sound) p Q

open Library

section Tokens

theorem keeps_fail {α : Type} (message : String) (Q : α → Prop) :
    Keeps (fail message : Parser Path α) Q := Ensures.of_throw message

theorem keeps_set (input : Input Path) (hinput : input.schema.Sound) :
    Keeps (set input : Parser Path Unit) fun _ ↦ True := Ensures.of_set hinput

theorem keeps_pop : Keeps (pop : Parser Path Name) fun _ ↦ True := by
  apply Ensures.of_get.bind
  intro input hinput
  rcases input with ⟨_ | ⟨token, rest⟩, package, schema⟩
  · exact keeps_fail _ _
  · show Keeps (set (Input.mk rest package schema) >>= fun _ ↦ pure token) fun _ ↦ True
    apply (keeps_set ⟨rest, package, schema⟩ hinput).bind
    intro _ _
    exact Ensures.of_pure trivial

theorem keeps_eat (value : String) : Keeps (eat value : Parser Path Bool) fun _ ↦ True := by
  apply Ensures.of_get.bind
  intro input hinput
  rcases input with ⟨_ | ⟨token, rest⟩, package, schema⟩
  · exact Ensures.of_pure trivial
  · show Keeps (if token = value.toList then
        set (Input.mk rest package schema) >>= fun _ ↦ pure true
      else pure false) fun _ ↦ True
    apply Ensures.ite
    · intro _
      apply (keeps_set ⟨rest, package, schema⟩ hinput).bind
      intro _ _
      exact Ensures.of_pure trivial
    · intro _
      exact Ensures.of_pure trivial

theorem keeps_need (value : String) : Keeps (need value : Parser Path Unit) fun _ ↦ True := by
  apply (keeps_eat value).bind
  intro found _
  exact Ensures.ite (fun _ ↦ Ensures.of_pure trivial) fun _ ↦ keeps_fail _ _

theorem keeps_ident : Keeps (ident : Parser Path Name) fun _ ↦ True := by
  apply keeps_pop.bind
  intro value _
  exact Ensures.ite (fun _ ↦ keeps_fail _ _) fun _ ↦ Ensures.of_pure trivial

theorem keeps_qualifiedRest (fuel : ℕ) (value : Name) :
    Keeps (qualifiedRest fuel value : Parser Path Name) fun _ ↦ True := by
  induction fuel generalizing value with
  | zero => exact keeps_fail _ _
  | succ fuel ih =>
      apply (keeps_eat ".").bind
      intro dot _
      apply Ensures.ite
      · intro _
        exact keeps_ident.bind fun name _ ↦ ih _
      · intro _
        exact Ensures.of_pure trivial

theorem keeps_qualified (fuel : ℕ) : Keeps (qualified fuel : Parser Path Name) fun _ ↦ True :=
  (keeps_eat ".").bind fun _ _ ↦ keeps_ident.bind fun _ _ ↦ keeps_qualifiedRest fuel _

theorem keeps_ignoredOption (fuel : ℕ) :
    Keeps (ignoredOption fuel : Parser Path Unit) fun _ ↦ True := by
  induction fuel with
  | zero => exact keeps_fail _ _
  | succ fuel ih =>
      apply keeps_pop.bind
      intro token _
      exact Ensures.ite (fun _ ↦ Ensures.of_pure trivial) fun _ ↦ ih

theorem keeps_int (host : Host Path) : Keeps (int host) fun _ ↦ True := by
  apply keeps_pop.bind
  intro token _
  cases host.int token with
  | none => exact keeps_fail _ _
  | some number => exact Ensures.of_pure trivial

end Tokens

/-! ## Declarations -/

theorem keeps_add (value : Definition) (hvalue : value.Sound) :
    Keeps (add value : Parser Path Unit) fun _ ↦ True := by
  apply Ensures.of_get.bind
  intro input hinput
  apply Ensures.ite
  · intro _
    exact keeps_fail _ _
  · intro hfresh
    apply Ensures.of_set
    constructor
    · show ((input.schema.types ++ [value]).map Definition.name).Nodup
      rw [List.map_append, List.nodup_append]
      refine ⟨hinput.names, List.nodup_singleton _, ?_⟩
      intro name hname other hother heq
      obtain ⟨t, ht, rfl⟩ := List.mem_map.mp hname
      obtain rfl : other = value.name := by simpa using hother
      exact hfresh (.inr ⟨t, ht, heq⟩)
    · intro t ht
      rcases List.mem_append.mp ht with ht | ht
      · exact hinput.types t ht
      · obtain rfl : t = value := by simpa using ht
        exact hvalue
    · exact hinput.services

theorem keeps_update (change : Definition → Definition) (hname : ∀ t, (change t).name = t.name)
    (hsound : ∀ t, t.Sound → (change t).Sound) :
    Keeps (update change : Parser Path Unit) fun _ ↦ True := by
  apply Ensures.of_get.bind
  intro input hinput
  apply Ensures.of_set
  constructor
  · show ((input.schema.types.map change).map Definition.name).Nodup
    have hnames : (input.schema.types.map change).map Definition.name =
        input.schema.types.map Definition.name := by
      rw [List.map_map]
      exact List.map_congr_left fun t _ ↦ hname t
    rw [hnames]
    exact hinput.names
  · intro t ht
    obtain ⟨old, hold, rfl⟩ := List.mem_map.mp ht
    exact hsound old (hinput.types old hold)
  · exact hinput.services

theorem keeps_setFields (full : Name) (fields : List Field) (hfields : SoundFields fields) :
    Keeps (update (Definition.setFields full fields) : Parser Path Unit) fun _ ↦ True := by
  apply keeps_update
  · rintro (_ | _) <;> rfl
  · rintro (⟨f, name, old⟩ | ⟨f, name, values⟩) hold
    · simp only [Definition.setFields, Definition.Sound]
      split_ifs
      · exact hfields
      · exact hold
    · exact hold

theorem keeps_setValues (full : Name) (values : List (Name × ℤ))
    (hvalues : (values.map Prod.fst).Nodup) :
    Keeps (update (Definition.setValues full values) : Parser Path Unit) fun _ ↦ True := by
  apply keeps_update
  · rintro (_ | _) <;> rfl
  · rintro (⟨f, name, fields⟩ | ⟨f, name, old⟩) hold
    · exact hold
    · simp only [Definition.setValues, Definition.Sound]
      split_ifs
      · exact hvalues
      · exact hold

theorem soundFields_nil : SoundFields [] := ⟨List.nodup_nil, by simp, by simp⟩

theorem keeps_mapField (fuel : ℕ) (full name : Name) :
    Keeps (mapField fuel full name : Parser Path (Name × Name)) fun _ ↦ True := by
  apply (keeps_need "<").bind
  intro _ _
  apply (keeps_qualified fuel).bind
  intro key _
  apply (keeps_need ",").bind
  intro _ _
  apply (keeps_qualified fuel).bind
  intro value _
  apply (keeps_need ">").bind
  intro _ _
  apply Ensures.ite
  · intro _
    exact keeps_fail _ _
  · intro _
    apply keeps_ident.bind
    intro fieldName _
    have hentry : SoundFields [⟨key, "key".toList, 1, false, false, true, []⟩,
        ⟨value, "value".toList, 2, false, false, true, []⟩] := by
      constructor
      · show ["key".toList, "value".toList].Nodup
        decide
      · simp only [List.mem_cons, List.not_mem_nil, or_false, forall_eq_or_imp, forall_eq]
        decide
      · simp only [List.mem_cons, List.not_mem_nil, or_false, forall_eq_or_imp, forall_eq]
        decide
    apply (keeps_add (.message _ _ _) hentry).bind
    intro _ _
    exact Ensures.of_pure trivial

theorem keeps_fieldOptions (fuel : ℕ) (packed : Bool) :
    Keeps (fieldOptions fuel packed : Parser Path Bool) fun _ ↦ True := by
  induction fuel generalizing packed with
  | zero => exact keeps_fail _ _
  | succ fuel ih =>
      have hend : ∀ packed, Keeps (do
          if ← eat "," then fieldOptions fuel packed
          else do
            need "]"
            return packed : Parser Path Bool) fun _ ↦ True := by
        intro packed
        apply (keeps_eat ",").bind
        intro more _
        exact Ensures.ite (fun _ ↦ ih packed) fun _ ↦
          (keeps_need "]").bind fun _ _ ↦ Ensures.of_pure trivial
      apply keeps_ident.bind
      intro option _
      apply (keeps_need "=").bind
      intro _ _
      apply keeps_pop.bind
      intro val _
      apply Ensures.ite
      · intro _
        exact hend _
      · intro _
        apply Ensures.ite
        · intro _
          exact keeps_fail _ _
        · intro _
          exact hend packed

/-- A field that passes the check leaves the fields sound. -/
theorem SoundFields.append {fields : List Field} (hfields : SoundFields fields) (f : Field)
    (hreserved : f.name ∉ reserved) (hhas : ¬"has_".toList <+: f.name)
    (hfresh : ∀ g ∈ fields, g.name ≠ f.name) : SoundFields (fields ++ [f]) := by
  constructor
  · rw [List.map_append, List.nodup_append]
    refine ⟨hfields.distinct, List.nodup_singleton _, ?_⟩
    intro name hname other hother heq
    obtain ⟨g, hg, rfl⟩ := List.mem_map.mp hname
    obtain rfl : other = f.name := by simpa using hother
    exact hfresh g hg heq
  · intro g hg
    rcases List.mem_append.mp hg with hg | hg
    · exact hfields.notReserved g hg
    · obtain rfl : g = f := by simpa using hg
      exact hreserved
  · intro g hg
    rcases List.mem_append.mp hg with hg | hg
    · exact hfields.notHas g hg
    · obtain rfl : g = f := by simpa using hg
      exact hhas

theorem keeps_eatOptional (repeated : Bool) :
    Keeps (eatOptional repeated : Parser Path Bool) fun _ ↦ True :=
  Ensures.ite (fun _ ↦ Ensures.of_pure trivial) fun _ ↦ keeps_eat _

theorem keeps_fieldNames (fuel : ℕ) (full name : Name) (isMap : Bool) :
    Keeps (fieldNames fuel full name isMap : Parser Path (Name × Name)) fun _ ↦ True := by
  apply Ensures.ite
  · intro _
    exact keeps_mapField fuel full name
  · intro _
    apply (keeps_qualified fuel).bind
    intro typeName _
    apply keeps_ident.bind
    intro fieldName _
    exact Ensures.of_pure trivial

theorem keeps_fieldPacked (fuel : ℕ) :
    Keeps (fieldPacked fuel : Parser Path Bool) fun _ ↦ True := by
  apply (keeps_eat "[").bind
  intro options _
  exact Ensures.ite (fun _ ↦ keeps_fieldOptions fuel true) fun _ ↦ Ensures.of_pure trivial

theorem keeps_fieldDeclaration (host : Host Path) (fuel : ℕ) (full name : Name)
    (fields : List Field) (hfields : SoundFields fields) :
    Keeps (fieldDeclaration host fuel full name fields) SoundFields := by
  apply (keeps_eat "repeated").bind
  intro repeated _
  apply (keeps_eatOptional repeated).bind
  intro optional _
  apply (keeps_eat "map").bind
  intro isMap _
  apply Ensures.ite
  · intro _
    exact keeps_fail _ _
  · intro _
    apply (keeps_fieldNames fuel full name isMap).bind
    rintro ⟨typeName, fieldName⟩ _
    apply (keeps_need "=").bind
    intro _ _
    apply (keeps_int host).bind
    intro number _
    apply Ensures.ite
    · intro _
      exact keeps_fail _ _
    · intro _
      apply Ensures.ite
      · intro _
        exact keeps_fail _ _
      · intro hcheck
        push Not at hcheck
        obtain ⟨hreserved, hhas, hfresh⟩ := hcheck
        apply (keeps_fieldPacked fuel).bind
        intro packed _
        apply (keeps_need ";").bind
        intro _ _
        exact Ensures.of_pure
          (hfields.append _ hreserved hhas fun g hg ↦ (hfresh g hg).1)

theorem keeps_eatIgnored : Keeps (eatIgnored : Parser Path Bool) fun _ ↦ True := by
  apply (keeps_eat "option").bind
  intro option _
  exact Ensures.ite (fun _ ↦ Ensures.of_pure trivial) fun _ ↦ keeps_eat _

theorem keeps_enumValues (host : Host Path) (fuel : ℕ) (values : List (Name × ℤ))
    (hvalues : (values.map Prod.fst).Nodup) :
    Keeps (enumValues host fuel values) fun values ↦ (values.map Prod.fst).Nodup := by
  induction fuel generalizing values with
  | zero => exact keeps_fail _ _
  | succ fuel ih =>
      apply (keeps_eat "\x7d").bind
      intro done _
      apply Ensures.ite
      · intro _
        exact Ensures.of_pure hvalues
      · intro _
        apply keeps_eatIgnored.bind
        intro ignored _
        apply Ensures.ite
        · intro _
          exact (keeps_ignoredOption fuel).bind fun _ _ ↦ ih values hvalues
        · intro _
          apply keeps_ident.bind
          intro key _
          apply (keeps_need "=").bind
          intro _ _
          apply (keeps_int host).bind
          intro number _
          apply (keeps_need ";").bind
          intro _ _
          apply Ensures.ite
          · intro _
            exact keeps_fail _ _
          · intro hcheck
            push Not at hcheck
            apply ih
            rw [List.map_append, List.nodup_append]
            refine ⟨hvalues, List.nodup_singleton _, ?_⟩
            intro name hname other hother heq
            obtain ⟨v, hv, rfl⟩ := List.mem_map.mp hname
            obtain rfl : other = key := by simpa using hother
            exact hcheck.2 v hv heq

theorem keeps_enum (host : Host Path) (fuel : ℕ) (scope outer : Name) :
    Keeps (enum host fuel scope outer) fun _ ↦ True := by
  apply keeps_ident.bind
  intro name _
  apply (keeps_add (.enum _ _ []) (List.nodup_nil : ([] : List Name).Nodup)).bind
  intro _ _
  apply (keeps_need "\x7b").bind
  intro _ _
  apply (keeps_enumValues host fuel [] List.nodup_nil).bind
  intro values hvalues
  apply Ensures.ite
  · intro _
    exact keeps_setValues _ values hvalues
  · intro _
    exact keeps_fail _ _

/-- The calls of `message` and its loop, by the turns that are left. -/
theorem keeps_message_members (host : Host Path) (fuel : ℕ) :
    (∀ scope outer, Keeps (message host fuel scope outer) fun _ ↦ True) ∧
      ∀ full name fields, SoundFields fields →
        Keeps (members host fuel full name fields) fun _ ↦ True := by
  induction fuel with
  | zero => exact ⟨fun _ _ ↦ keeps_fail _ _, fun _ _ _ _ ↦ keeps_fail _ _⟩
  | succ fuel ih =>
      obtain ⟨hmessage, hmembers⟩ := ih
      constructor
      · intro scope outer
        rw [message]
        apply keeps_ident.bind
        intro name _
        apply (keeps_add (.message _ _ []) soundFields_nil).bind
        intro _ _
        apply (keeps_need "\x7b").bind
        intro _ _
        apply Ensures.ite
        · intro _
          exact keeps_fail _ _
        · intro _
          exact hmembers _ _ [] soundFields_nil
      · intro full name fields hfields
        rw [members]
        apply (keeps_eat "\x7d").bind
        intro done _
        apply Ensures.ite
        · intro _
          exact keeps_setFields full fields hfields
        intro _
        apply (keeps_eat "message").bind
        intro nested _
        apply Ensures.ite
        · intro _
          exact (hmessage _ _).bind fun _ _ ↦ hmembers full name fields hfields
        intro _
        apply (keeps_eat "enum").bind
        intro nested _
        apply Ensures.ite
        · intro _
          exact (keeps_enum host fuel _ _).bind fun _ _ ↦ hmembers full name fields hfields
        intro _
        apply keeps_eatIgnored.bind
        intro ignored _
        apply Ensures.ite
        · intro _
          exact (keeps_ignoredOption fuel).bind fun _ _ ↦ hmembers full name fields hfields
        intro _
        apply (keeps_eat ";").bind
        intro blank _
        apply Ensures.ite
        · intro _
          exact hmembers full name fields hfields
        intro _
        exact (keeps_fieldDeclaration host fuel full name fields hfields).bind
          fun fields ↦ hmembers full name fields

theorem keeps_message (host : Host Path) (fuel : ℕ) (scope outer : Name) :
    Keeps (message host fuel scope outer) fun _ ↦ True :=
  (keeps_message_members host fuel).1 scope outer

theorem keeps_rpcOptions (fuel : ℕ) :
    Keeps (rpcOptions fuel : Parser Path Unit) fun _ ↦ True := by
  induction fuel with
  | zero => exact keeps_fail _ _
  | succ fuel ih =>
      apply (keeps_eat "\x7d").bind
      intro done _
      apply Ensures.ite
      · intro _
        exact Ensures.of_pure trivial
      · intro _
        apply (keeps_need "option").bind
        intro _ _
        exact (keeps_ignoredOption fuel).bind fun _ _ ↦ ih

theorem keeps_rpcEnd (fuel : ℕ) : Keeps (rpcEnd fuel : Parser Path Unit) fun _ ↦ True := by
  apply (keeps_eat "\x7b").bind
  intro options _
  exact Ensures.ite (fun _ ↦ keeps_rpcOptions fuel) fun _ ↦ keeps_need _

theorem keeps_rpcs (fuel : ℕ) (methods : List Method)
    (hmethods : (methods.map Method.name).Nodup) :
    Keeps (rpcs fuel methods : Parser Path (List Method))
      fun methods ↦ (methods.map Method.name).Nodup := by
  induction fuel generalizing methods with
  | zero => exact keeps_fail _ _
  | succ fuel ih =>
      apply (keeps_eat "\x7d").bind
      intro done _
      apply Ensures.ite
      · intro _
        exact Ensures.of_pure hmethods
      · intro _
        apply (keeps_need "rpc").bind
        intro _ _
        apply keeps_ident.bind
        intro method _
        apply (keeps_need "(").bind
        intro _ _
        apply (keeps_qualified fuel).bind
        intro request _
        apply (keeps_need ")").bind
        intro _ _
        apply (keeps_need "returns").bind
        intro _ _
        apply (keeps_need "(").bind
        intro _ _
        apply (keeps_qualified fuel).bind
        intro response _
        apply (keeps_need ")").bind
        intro _ _
        apply (keeps_rpcEnd fuel).bind
        intro _ _
        apply Ensures.ite
        · intro _
          exact keeps_fail _ _
        · intro hcheck
          push Not at hcheck
          apply ih
          rw [List.map_append, List.nodup_append]
          refine ⟨hmethods, List.nodup_singleton _, ?_⟩
          intro name hname other hother heq
          obtain ⟨m, hm, rfl⟩ := List.mem_map.mp hname
          obtain rfl : other = method := by simpa using hother
          exact hcheck m hm heq

theorem keeps_service (fuel : ℕ) : Keeps (service fuel : Parser Path Unit) fun _ ↦ True := by
  apply keeps_ident.bind
  intro name _
  apply Ensures.of_get.bind
  intro opened _
  apply (keeps_need "\x7b").bind
  intro _ _
  apply (keeps_rpcs fuel [] List.nodup_nil).bind
  intro methods hmethods
  apply Ensures.of_get.bind
  intro input hinput
  apply Ensures.of_set
  refine ⟨hinput.names, hinput.types, ?_⟩
  intro s hs
  rcases List.mem_append.mp hs with hs | hs
  · exact hinput.services s hs
  · obtain rfl : s = ⟨dotted opened.package name, name, methods⟩ := by simpa using hs
    exact hmethods

/-! ## Files -/

/-- The calls of `read` and `parse`, by the turns that are left. -/
theorem keeps_read_parse [DecidableEq Path] (host : Host Path) (fuel : ℕ) :
    (∀ path schema schema', read host fuel path schema = .ok schema' → schema.Sound →
      schema'.Sound) ∧
    ∀ path syntaxGiven, Keeps (parse host fuel path syntaxGiven) fun _ ↦ True := by
  induction fuel with
  | zero =>
      refine ⟨?_, fun _ _ ↦ keeps_fail _ _⟩
      intro path schema schema' h
      cases h
  | succ fuel ih =>
      obtain ⟨hread, hparse⟩ := ih
      constructor
      · intro path schema schema' h hschema
        rw [read] at h
        split_ifs at h
        · cases h
          exact hschema
        · cases htokens : host.tokens path with
          | error e => simp [htokens, Bind.bind, Except.bind] at h
          | ok tokens =>
              have hopened : Schema.Sound { schema with files := path :: schema.files } :=
                ⟨hschema.names, hschema.types, hschema.services⟩
              cases hrun : (parse host fuel path false).run
                  ⟨tokens, [], { schema with files := path :: schema.files }⟩ with
              | error e => simp [htokens, hrun, Bind.bind, Except.bind] at h
              | ok r =>
                  have hkept := (hparse path false).run hrun hopened
                  simp only [htokens, hrun, Bind.bind, Except.bind, pure, Except.pure,
                    Except.ok.injEq] at h
                  rw [← h]
                  exact hkept
      · intro path syntaxGiven
        rw [parse]
        have hnext : ∀ syntaxGiven, Keeps (parse host fuel path syntaxGiven) fun _ ↦ True :=
          hparse path
        apply Ensures.of_get.bind
        intro input _
        apply Ensures.ite
        · intro _
          exact Ensures.ite (fun _ ↦ Ensures.of_pure trivial) fun _ ↦ keeps_fail _ _
        intro _
        apply keeps_pop.bind
        intro token _
        apply Ensures.ite
        · intro _
          apply (keeps_need "=").bind
          intro _ _
          apply (keeps_need "\"proto3\"").bind
          intro _ _
          exact (keeps_need ";").bind fun _ _ ↦ hnext true
        intro _
        apply Ensures.ite
        · intro _
          apply (keeps_qualified fuel).bind
          intro package _
          apply Ensures.of_get.bind
          intro input hinput
          apply (keeps_set { input with package := package } hinput).bind
          intro _ _
          exact (keeps_need ";").bind fun _ _ ↦ hnext syntaxGiven
        intro _
        apply Ensures.ite
        · intro _
          apply (keeps_eat "public").bind
          intro _ _
          apply keeps_pop.bind
          intro name _
          cases host.json name with
          | none => exact keeps_fail _ _
          | some name =>
              apply (keeps_need ";").bind
              intro _ _
              cases host.found path name with
              | none => exact keeps_fail _ _
              | some file =>
                  apply Ensures.of_get.bind
                  intro input hinput
                  cases hschema : read host fuel file input.schema with
                  | error e => exact Ensures.of_throw e
                  | ok schema =>
                      have hkept := hread file input.schema schema hschema hinput
                      apply (keeps_set { input with schema := schema } hkept).bind
                      intro _ _
                      exact hnext syntaxGiven
        intro _
        apply Ensures.ite
        · intro _
          apply Ensures.of_get.bind
          intro input _
          exact (keeps_message host fuel _ _).bind fun _ _ ↦ hnext syntaxGiven
        intro _
        apply Ensures.ite
        · intro _
          apply Ensures.of_get.bind
          intro input _
          exact (keeps_enum host fuel _ _).bind fun _ _ ↦ hnext syntaxGiven
        intro _
        apply Ensures.ite
        · intro _
          exact (keeps_service fuel).bind fun _ _ ↦ hnext syntaxGiven
        intro _
        apply Ensures.ite
        · intro _
          exact (keeps_ignoredOption fuel).bind fun _ _ ↦ hnext syntaxGiven
        intro _
        exact Ensures.ite (fun _ ↦ keeps_fail _ _) fun _ ↦ hnext syntaxGiven

/-! ## Resolved names -/

section Resolve

variable (schema : Schema Path)

theorem SoundFields.of_names {fields resolved : List Field} (hfields : SoundFields fields)
    (h : resolved.map Field.name = fields.map Field.name) : SoundFields resolved := by
  have hmem : ∀ f ∈ resolved, ∃ g ∈ fields, g.name = f.name := by
    intro f hf
    have hname : f.name ∈ fields.map Field.name := h ▸ List.mem_map_of_mem hf
    exact List.mem_map.mp hname
  refine ⟨h ▸ hfields.distinct, ?_, ?_⟩
  · intro f hf
    obtain ⟨g, hg, heq⟩ := hmem f hf
    exact heq ▸ hfields.notReserved g hg
  · intro f hf
    obtain ⟨g, hg, heq⟩ := hmem f hf
    exact heq ▸ hfields.notHas g hg

theorem resolveField_name (scope : Name) (f g : Field)
    (h : schema.resolveField scope f = .ok g) : g.name = f.name := by
  unfold Schema.resolveField at h
  cases hresolve : schema.resolve f.type scope with
  | error e => simp [hresolve, Bind.bind, Except.bind] at h
  | ok resolved =>
      simp only [hresolve, Bind.bind, Except.bind, pure, Except.pure, Except.ok.injEq] at h
      rw [← h]

theorem resolveDefinition_keeps (t t' : Definition) (h : schema.resolveDefinition t = .ok t') :
    t'.name = t.name ∧ (t.Sound → t'.Sound) := by
  cases t with
  | message full name fields =>
      cases hfields : fields.mapM (schema.resolveField full) with
      | error e => simp [Schema.resolveDefinition, hfields, Bind.bind, Except.bind] at h
      | ok resolved =>
          simp only [Schema.resolveDefinition, hfields, Bind.bind, Except.bind, pure,
            Except.pure, Except.ok.injEq] at h
          subst h
          refine ⟨rfl, fun hsound ↦ SoundFields.of_names hsound ?_⟩
          exact mapM_map_eq Field.name (resolveField_name schema full) hfields
  | enum full name values =>
      obtain rfl : Definition.enum full name values = t' := by
        simpa [Schema.resolveDefinition, pure, Except.pure] using h
      exact ⟨rfl, id⟩

theorem resolveService_keeps (s s' : Service) (h : schema.resolveService s = .ok s') :
    s'.name = s.name ∧ s'.methods.map Method.name = s.methods.map Method.name := by
  have hmethod : ∀ m m', schema.resolveMethod s.full m = .ok m' → m'.name = m.name := by
    intro m m' hm
    unfold Schema.resolveMethod at hm
    cases hrequest : schema.resolve m.request s.full with
    | error e => simp [hrequest, Bind.bind, Except.bind] at hm
    | ok request =>
        cases hresponse : schema.resolve m.response s.full with
        | error e => simp [hrequest, hresponse, Bind.bind, Except.bind] at hm
        | ok response =>
            simp only [hrequest, hresponse, Bind.bind, Except.bind, pure, Except.pure,
              Except.ok.injEq] at hm
            rw [← hm]
  unfold Schema.resolveService at h
  cases hmethods : s.methods.mapM (schema.resolveMethod s.full) with
  | error e => simp [hmethods, Bind.bind, Except.bind] at h
  | ok methods =>
      simp only [hmethods, Bind.bind, Except.bind, pure, Except.pure] at h
      split_ifs at h
      cases h
      exact ⟨rfl, mapM_map_eq Method.name hmethod hmethods⟩

theorem validate_keeps (schema' : Schema Path) (h : schema.validate = .ok schema')
    (hsound : schema.Sound) : schema'.Sound := by
  unfold Schema.validate at h
  cases htypes : schema.types.mapM schema.resolveDefinition with
  | error e => simp [htypes, Bind.bind, Except.bind] at h
  | ok types =>
      cases hservices : schema.services.mapM schema.resolveService with
      | error e => simp [htypes, hservices, Bind.bind, Except.bind] at h
      | ok services =>
          simp only [htypes, hservices, Bind.bind, Except.bind, pure, Except.pure,
            Except.ok.injEq] at h
          subst h
          constructor
          · have hnames := mapM_map_eq Definition.name
              (fun t t' ht ↦ (resolveDefinition_keeps schema t t' ht).1) htypes
            show (types.map Definition.name).Nodup
            rw [hnames]
            exact hsound.names
          · intro t' ht'
            obtain ⟨t, ht, hresolve⟩ := exists_of_mapM htypes t' ht'
            exact (resolveDefinition_keeps schema t t' hresolve).2 (hsound.types t ht)
          · intro s' hs'
            obtain ⟨s, hs, hresolve⟩ := exists_of_mapM hservices s' hs'
            rw [(resolveService_keeps schema s s' hresolve).2]
            exact hsound.services s hs

end Resolve

/-- A schema that is accepted is sound. -/
theorem accepted_sound [DecidableEq Path] (host : Host Path) (fuel : ℕ) (path : Path)
    (schema : Schema Path) (h : accepted host fuel path = .ok schema) : schema.Sound := by
  unfold accepted at h
  cases hread : read host fuel path ⟨[], [], []⟩ with
  | error e => simp [hread, Bind.bind, Except.bind] at h
  | ok raw =>
      have hempty : Schema.Sound (⟨[], [], []⟩ : Schema Path) :=
        ⟨List.nodup_nil, by simp, by simp⟩
      have hraw := (keeps_read_parse host fuel).1 path _ raw hread hempty
      apply validate_keeps raw schema _ hraw
      simpa [hread, Bind.bind, Except.bind] using h

end TinyCPlus.Protobuf.Proto
