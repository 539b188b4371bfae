import TinyCPlus.Protobuf.SchemaChecks

/-!
# Names in generated files (`Generator` of `tiny-protoc.py`)

Of the generated text only the declarations and the names of their members are kept.
-/

namespace TinyCPlus.Protobuf.Proto

attribute [local instance] name_lawfulBEq

variable {Path : Type}

/-! ## The declarations of a file -/

/-- Where the name of a member comes from: the last is a value of an enum. -/
inductive Origin where
  | generator | field | rpc | value
deriving DecidableEq

structure Member where
  origin : Origin
  name : Name
deriving DecidableEq

inductive Kind where
  | classType | interfaceType | function
deriving DecidableEq

structure Declaration where
  kind : Kind
  name : Name
  members : List Member
deriving DecidableEq

def own (name : String) : Member := ⟨.generator, name.toList⟩

namespace Schema

variable (schema : Schema Path)

/-- The last part of `info`. -/
def holdsMessage (f : Field) : Bool := f.resolved ∉ scalars && schema.isMessage f.resolved

def fieldMembers (f : Field) : List Member :=
  ⟨.field, f.name⟩ ::
    if f.optional && !schema.holdsMessage f then [⟨.generator, "has_".toList ++ f.name⟩] else []

/-- `Generator.message` -/
def messageClass (name : Name) (fields : List Field) : Declaration :=
  ⟨.classType, name, own "wireStorage" :: fields.flatMap schema.fieldMembers ++
    ["destroy", "encode", "decode", "decodeView", "mergeView"].map own⟩

def typeDeclaration : Definition → Declaration
  | .message _ name fields => schema.messageClass name fields
  | .enum _ name values => ⟨.classType, name, values.map fun v ↦ ⟨.value, v.1⟩⟩

end Schema

namespace Service

variable (s : Service)

def rpcMembers : List Member := s.methods.map fun m ↦ ⟨.rpc, m.name⟩

def dispatchName (m : Method) : Name :=
  s.name ++ '_' :: m.name ++ "_dispatch".toList

/-- `Generator.service` -/
def declarations : List Declaration :=
  [⟨.interfaceType, s.name ++ "Service".toList, s.rpcMembers⟩,
    ⟨.classType, s.name ++ "Client".toList, own "transport" :: own "connect" :: s.rpcMembers⟩,
    ⟨.classType, s.name ++ "Binding".toList, [own "service", own "addTo"]⟩] ++
  s.methods.map fun m ↦ ⟨.function, s.dispatchName m, []⟩

end Service

namespace Schema

variable (schema : Schema Path)

/-- `Generator.generate` -/
def generate : List Declaration :=
  schema.types.map schema.typeDeclaration ++ schema.services.flatMap Service.declarations

/-- The types of `std.protobuf` and of the modules that it imports. -/
def protobufTypes : List Name :=
  ["ProtoWriter", "ProtoReader", "OwnedString", "String", "StringBuilder", "Array",
    "Map"].map String.toList

/-- The types of `std.grpc` and of the other modules that it imports. -/
def grpcTypes : List Name :=
  ["GrpcResponse", "GrpcClient", "GrpcServer", "Address", "Dns", "TcpSocket", "UdpSocket",
    "AsyncFile", "Thread", "Mutex", "Condition", "Semaphore", "Event", "Atomic",
    "CancellationToken", "WorkerPool", "Channel", "Future", "TaskGroup"].map String.toList

def imported : List Name :=
  protobufTypes ++ if schema.services = [] then [] else grpcTypes

end Schema

/-- No two names of a file conflict, where so many types are imported. -/
structure ConflictFree (imported : List Name) (file : List Declaration) : Prop where
  distinct : (file.map Declaration.name).Nodup
  notImported : ∀ d ∈ file, d.name ∉ imported
  members : ∀ d ∈ file, (d.members.map Member.name).Nodup
  /-- `init` is the name of a constructor. -/
  own : ∀ d ∈ file, ∀ m ∈ d.members, m.origin = .field ∨ m.origin = .rpc →
    (∀ g ∈ d.members, g.origin = .generator → g.name ≠ m.name) ∧ m.name ≠ "init".toList

/-! ## Names that are apart -/

def serviceEndings : List Name := ["Service", "Client", "Binding"].map String.toList

/-- What the parser leaves to check. -/
structure NamesApart (schema : Schema Path) : Prop where
  types : ∀ t ∈ schema.types, t.name ∉ schema.imported
  services : (schema.services.map Service.name).Nodup
  /-- The class of its client would be the one of `std.grpc`. -/
  grpc : ∀ s ∈ schema.services, s.name ≠ "Grpc".toList
  typeService : ∀ t ∈ schema.types, ∀ s ∈ schema.services, ∀ ending ∈ serviceEndings,
    t.name ≠ s.name ++ ending
  typeDispatch : ∀ t ∈ schema.types, ∀ s ∈ schema.services, ∀ m ∈ s.methods,
    t.name ≠ s.name ++ '_' :: m.name ++ "_dispatch".toList
  /-- The name of a service goes on with `_rest` where an rpc of another begins with `rest_`. -/
  dispatch : ∀ s ∈ schema.services, ∀ s' ∈ schema.services, ∀ rest,
    s'.name = s.name ++ '_' :: rest →
    ∀ m ∈ s.methods, ∀ m' ∈ s'.methods, m.name ≠ rest ++ '_' :: m'.name
  rpcs : ∀ s ∈ schema.services, ∀ m ∈ s.methods,
    m.name ∉ ["transport".toList, "connect".toList, "init".toList]
  fields : ∀ full name fields, Definition.message full name fields ∈ schema.types →
    ∀ f ∈ fields, f.name ≠ "init".toList

/-! ## Members -/

theorem name_ne_has (fields : List Field) (hfields : SoundFields fields) (f : Field)
    (hf : f ∈ fields) (g : Field) : f.name ≠ "has_".toList ++ g.name := by
  intro heq
  exact hfields.notHas f hf (heq ▸ List.prefix_append _ _)

/-- The names of the members of the field, with the name of its presence last. -/
theorem mem_fieldMembers (schema : Schema Path) (f : Field) (m : Member)
    (hm : m ∈ schema.fieldMembers f) :
    m = ⟨.field, f.name⟩ ∨ m = ⟨.generator, "has_".toList ++ f.name⟩ := by
  unfold Schema.fieldMembers at hm
  rcases List.mem_cons.mp hm with rfl | hm
  · exact .inl rfl
  · split_ifs at hm
    · exact .inr (by simpa using hm)
    · cases hm

theorem fieldMembers_nodup (schema : Schema Path) (fields : List Field)
    (hfields : SoundFields fields) :
    ((fields.flatMap schema.fieldMembers).map Member.name).Nodup := by
  rw [List.map_flatMap, List.nodup_flatMap]
  constructor
  · intro f hf
    have hne := name_ne_has fields hfields f hf f
    unfold Schema.fieldMembers
    split_ifs
    · simpa using hne
    · simp
  · have hpairs : fields.Pairwise fun f g ↦ f.name ≠ g.name :=
      List.pairwise_map.mp hfields.distinct
    apply hpairs.imp_of_mem
    intro f g hf hg hne name hname hother
    obtain ⟨m, hm, rfl⟩ := List.mem_map.mp hname
    obtain ⟨m', hm', heq⟩ := List.mem_map.mp hother
    rcases mem_fieldMembers schema f m hm with rfl | rfl <;>
      rcases mem_fieldMembers schema g m' hm' with rfl | rfl
    · exact hne heq.symm
    · exact name_ne_has fields hfields f hf g heq.symm
    · exact name_ne_has fields hfields g hg f heq
    · exact hne (List.append_cancel_left heq.symm)

/-- The names that the generator uses in the class of a message are all reserved. -/
theorem messageClass_nodup (schema : Schema Path) (name : Name) (fields : List Field)
    (hfields : SoundFields fields) :
    ((schema.messageClass name fields).members.map Member.name).Nodup := by
  have hapart : ∀ n ∈ (fields.flatMap schema.fieldMembers).map Member.name, n ∉ reserved := by
    intro n hn hreserved
    obtain ⟨m, hm, rfl⟩ := List.mem_map.mp hn
    obtain ⟨f, hf, hm⟩ := List.mem_flatMap.mp hm
    rcases mem_fieldMembers schema f m hm with rfl | rfl
    · exact hfields.notReserved f hf hreserved
    · have hnone : ∀ r ∈ reserved, ¬"has_".toList <+: r := by decide
      exact hnone _ hreserved (List.prefix_append _ _)
  have hwire : "wireStorage".toList ∈ reserved := by decide
  have hmethods : ∀ n ∈ ["destroy", "encode", "decode", "decodeView", "mergeView"].map
      String.toList, n ∈ reserved ∧ n ≠ "wireStorage".toList := by decide
  have hnames : (schema.messageClass name fields).members.map Member.name =
      "wireStorage".toList :: ((fields.flatMap schema.fieldMembers).map Member.name ++
        ["destroy", "encode", "decode", "decodeView", "mergeView"].map String.toList) := by
    simp [Schema.messageClass, own]
  rw [hnames, List.nodup_cons, List.nodup_append]
  refine ⟨?_, fieldMembers_nodup schema fields hfields, by decide, ?_⟩
  · intro h
    rcases List.mem_append.mp h with h | h
    · exact hapart _ h hwire
    · exact (hmethods _ h).2 rfl
  · intro n hn n' hn' heq
    exact hapart n hn (heq ▸ (hmethods n' hn').1)

/-- A member of the schema has another name than the members of the generator where all names are
distinct. -/
theorem own_of_nodup (members : List Member) (hmembers : (members.map Member.name).Nodup)
    (m : Member) (hm : m ∈ members) (horigin : m.origin = .field ∨ m.origin = .rpc) :
    ∀ g ∈ members, g.origin = .generator → g.name ≠ m.name := by
  intro g hg hgenerator heq
  obtain rfl : g = m := List.inj_on_of_nodup_map hmembers hg hm heq
  rw [hgenerator] at horigin
  rcases horigin with h | h <;> cases h

/-! ## Names of declarations -/

/-- The names of the declarations of a service, each as a stem and its ending. -/
def Service.stems (s : Service) : List (Name × Name) :=
  (serviceEndings.map fun ending ↦ (s.name, ending)) ++
    s.methods.map fun m ↦ (s.name ++ '_' :: m.name, "_dispatch".toList)

theorem Service.names_eq (s : Service) :
    s.declarations.map Declaration.name = s.stems.map fun p ↦ p.1 ++ p.2 := by
  simp [declarations, stems, serviceEndings, dispatchName, Function.comp_def]

def endings : List Name := serviceEndings ++ ["_dispatch".toList]

theorem Service.mem_stems (s : Service) (p : Name × Name) (hp : p ∈ s.stems) :
    p.2 ∈ endings ∧ ((p.2 ∈ serviceEndings ∧ p.1 = s.name) ∨
      (p.2 = "_dispatch".toList ∧ ∃ m ∈ s.methods, p.1 = s.name ++ '_' :: m.name)) := by
  rcases List.mem_append.mp hp with hp | hp
  · obtain ⟨ending, hending, rfl⟩ := List.mem_map.mp hp
    exact ⟨List.mem_append_left _ hending, .inl ⟨hending, rfl⟩⟩
  · obtain ⟨m, hm, rfl⟩ := List.mem_map.mp hp
    exact ⟨List.mem_append_right _ (List.mem_singleton.mpr rfl), .inr ⟨rfl, m, hm, rfl⟩⟩

/-- The endings have different last letters. -/
theorem append_ending_inj (stem stem' ending ending' : Name) (hending : ending ∈ endings)
    (hending' : ending' ∈ endings) (h : stem ++ ending = stem' ++ ending') :
    stem = stem' ∧ ending = ending' := by
  have hlast : ∀ e ∈ endings, ∀ e' ∈ endings, e.getLast? = e'.getLast? → e = e' := by decide
  have hsome : ∀ e ∈ endings, e ≠ [] := by decide
  have hgetLast := congrArg List.getLast? h
  rw [List.getLast?_append_of_ne_nil _ (hsome ending hending),
    List.getLast?_append_of_ne_nil _ (hsome ending' hending')] at hgetLast
  obtain rfl := hlast ending hending ending' hending' hgetLast
  exact ⟨List.append_cancel_right h, rfl⟩

/-- Two ways to cut a name at an underscore. -/
theorem cut_cases (a b c d : Name) (h : a ++ '_' :: b = c ++ '_' :: d) :
    (a = c ∧ b = d) ∨ (∃ rest, c = a ++ '_' :: rest ∧ b = rest ++ '_' :: d) ∨
      ∃ rest, a = c ++ '_' :: rest ∧ d = rest ++ '_' :: b := by
  rcases List.append_eq_append_iff.mp h with ⟨rest, hc, hb⟩ | ⟨rest, ha, hd⟩
  · cases rest with
    | nil => exact .inl ⟨by simpa using hc.symm, by simpa using hb⟩
    | cons x rest =>
        obtain ⟨rfl, rfl⟩ := List.cons.inj hb
        exact .inr (.inl ⟨rest, hc, rfl⟩)
  · cases rest with
    | nil => exact .inl ⟨by simpa using ha, by simpa using hd.symm⟩
    | cons x rest =>
        obtain ⟨rfl, rfl⟩ := List.cons.inj hd
        exact .inr (.inr ⟨rest, ha, rfl⟩)

theorem Service.names_nodup (s : Service) (hmethods : (s.methods.map Method.name).Nodup) :
    (s.declarations.map Declaration.name).Nodup := by
  rw [s.names_eq]
  apply List.Nodup.map_on
  · intro p hp q hq heq
    obtain ⟨hfirst, hsecond⟩ := append_ending_inj p.1 q.1 p.2 q.2 (s.mem_stems p hp).1
      (s.mem_stems q hq).1 heq
    exact Prod.ext hfirst hsecond
  · rw [stems, List.nodup_append]
    refine ⟨?_, ?_, ?_⟩
    · apply List.Nodup.map
      · intro e e' h
        exact (Prod.mk.inj h).2
      · decide
    · have hpairs : s.methods.Pairwise fun m m' ↦ m.name ≠ m'.name :=
        List.pairwise_map.mp hmethods
      apply List.pairwise_map.mpr
      apply hpairs.imp
      intro m m' hne heq
      exact hne (by simpa using heq)
    · intro p hp q hq heq
      obtain ⟨ending, hending, rfl⟩ := List.mem_map.mp hp
      obtain ⟨m, -, rfl⟩ := List.mem_map.mp hq
      have hdispatch : ∀ e ∈ serviceEndings, e ≠ "_dispatch".toList := by decide
      exact hdispatch ending hending (Prod.mk.inj heq).2

/-- What it is for the names of two services to have none in common. -/
theorem disjoint_names_iff (s s' : Service) :
    List.Disjoint (s.declarations.map Declaration.name) (s'.declarations.map Declaration.name) ↔
      s.name ≠ s'.name ∧
      (∀ rest, s'.name = s.name ++ '_' :: rest →
        ∀ m ∈ s.methods, ∀ m' ∈ s'.methods, m.name ≠ rest ++ '_' :: m'.name) ∧
      ∀ rest, s.name = s'.name ++ '_' :: rest →
        ∀ m ∈ s.methods, ∀ m' ∈ s'.methods, m'.name ≠ rest ++ '_' :: m.name := by
  rw [s.names_eq, s'.names_eq]
  constructor
  · intro hdisjoint
    have hdispatch : ∀ m ∈ s.methods, ∀ m' ∈ s'.methods,
        s.name ++ '_' :: m.name ≠ s'.name ++ '_' :: m'.name := by
      intro m hm m' hm' heq
      refine hdisjoint (List.mem_map.mpr ⟨(s.name ++ '_' :: m.name, "_dispatch".toList), ?_, rfl⟩)
        (List.mem_map.mpr ⟨(s'.name ++ '_' :: m'.name, "_dispatch".toList), ?_, by rw [heq]⟩)
      · exact List.mem_append_right _ (List.mem_map_of_mem hm)
      · exact List.mem_append_right _ (List.mem_map_of_mem hm')
    refine ⟨?_, ?_, ?_⟩
    · intro heq
      have hservice : ∀ t : Service, (t.name, "Service".toList) ∈ t.stems := by
        intro t
        exact List.mem_append_left _ (List.mem_map_of_mem (by decide))
      exact hdisjoint (List.mem_map.mpr ⟨_, hservice s, rfl⟩)
        (List.mem_map.mpr ⟨_, hservice s', by rw [heq]⟩)
    · intro rest hname m hm m' hm' heq
      apply hdispatch m hm m' hm'
      rw [hname, heq]
      simp
    · intro rest hname m hm m' hm' heq
      apply hdispatch m hm m' hm'
      rw [hname, heq]
      simp
  · rintro ⟨hname, hforth, hback⟩ n hn hn'
    obtain ⟨p, hp, rfl⟩ := List.mem_map.mp hn
    obtain ⟨q, hq, heq⟩ := List.mem_map.mp hn'
    obtain ⟨hpending, hpcases⟩ := s.mem_stems p hp
    obtain ⟨hqending, hqcases⟩ := s'.mem_stems q hq
    obtain ⟨hstem, hending⟩ := append_ending_inj q.1 p.1 q.2 p.2 hqending hpending heq
    have hdispatch : "_dispatch".toList ∉ serviceEndings := by decide
    rcases hpcases with ⟨hservice, hstem'⟩ | ⟨hd, m, hm, hstem'⟩
    · rcases hqcases with ⟨-, hstem''⟩ | ⟨hd, -⟩
      · exact hname (by rw [← hstem', ← hstem, hstem''])
      · exact hdispatch (by rw [← hd, hending]; exact hservice)
    · rcases hqcases with ⟨hservice, -⟩ | ⟨-, m', hm', hstem''⟩
      · exact hdispatch (by rw [← hd, ← hending]; exact hservice)
      · have hcut : s.name ++ '_' :: m.name = s'.name ++ '_' :: m'.name := by
          rw [← hstem', ← hstem, hstem'']
        rcases cut_cases _ _ _ _ hcut with ⟨h, -⟩ | ⟨rest, h, h'⟩ | ⟨rest, h, h'⟩
        · exact hname h
        · exact hforth rest h m hm m' hm' h'
        · exact hback rest h m hm m' hm' h'

/-! ## Whole files -/

section Files

variable (schema : Schema Path)

theorem generate_names : schema.generate.map Declaration.name =
    schema.types.map Definition.name ++
      schema.services.flatMap fun s ↦ s.declarations.map Declaration.name := by
  have htypes : ∀ t : Definition, (schema.typeDeclaration t).name = t.name := by
    rintro (_ | _) <;> rfl
  simp [Schema.generate, List.map_flatMap, htypes]

theorem pairwise_disjoint_iff :
    (schema.services.Pairwise fun s s' ↦ List.Disjoint (s.declarations.map Declaration.name)
      (s'.declarations.map Declaration.name)) ↔
    (schema.services.map Service.name).Nodup ∧
    ∀ s ∈ schema.services, ∀ s' ∈ schema.services, ∀ rest, s'.name = s.name ++ '_' :: rest →
      ∀ m ∈ s.methods, ∀ m' ∈ s'.methods, m.name ≠ rest ++ '_' :: m'.name := by
  constructor
  · intro hpairs
    constructor
    · apply List.pairwise_map.mpr
      exact hpairs.imp fun h ↦ ((disjoint_names_iff _ _).mp h).1
    · intro s hs s' hs' rest hname
      have hne : s ≠ s' := by
        rintro rfl
        have := congrArg List.length hname
        simp at this
      have hsymm : Std.Symm fun s s' : Service ↦
          List.Disjoint (s.declarations.map Declaration.name)
            (s'.declarations.map Declaration.name) := ⟨fun _ _ h ↦ h.symm⟩
      exact ((disjoint_names_iff s s').mp (hpairs.forall hs hs' hne)).2.1 rest hname
  · rintro ⟨hnames, hdispatch⟩
    apply (List.pairwise_map.mp hnames).imp_of_mem
    intro s s' hs hs' hne
    apply (disjoint_names_iff s s').mpr
    refine ⟨hne, hdispatch s hs s' hs', ?_⟩
    intro rest hname m hm m' hm'
    exact hdispatch s' hs' s hs rest hname m' hm' m hm

theorem generate_nodup_iff (hsound : schema.Sound) :
    (schema.generate.map Declaration.name).Nodup ↔
    ((schema.services.map Service.name).Nodup ∧
      ∀ s ∈ schema.services, ∀ s' ∈ schema.services, ∀ rest, s'.name = s.name ++ '_' :: rest →
        ∀ m ∈ s.methods, ∀ m' ∈ s'.methods, m.name ≠ rest ++ '_' :: m'.name) ∧
    ∀ t ∈ schema.types, ∀ s ∈ schema.services,
      t.name ∉ s.declarations.map Declaration.name := by
  rw [generate_names, List.nodup_append, List.nodup_flatMap]
  constructor
  · rintro ⟨-, ⟨-, hpairs⟩, hapart⟩
    refine ⟨(pairwise_disjoint_iff schema).mp hpairs, ?_⟩
    intro t ht s hs hname
    exact hapart t.name (List.mem_map_of_mem ht) t.name
      (List.mem_flatMap.mpr ⟨s, hs, hname⟩) rfl
  · rintro ⟨hservices, hapart⟩
    refine ⟨hsound.names, ⟨?_, (pairwise_disjoint_iff schema).mpr hservices⟩, ?_⟩
    · intro s hs
      exact s.names_nodup (hsound.services s hs)
    · rintro n hn n' hn' rfl
      obtain ⟨t, ht, rfl⟩ := List.mem_map.mp hn
      obtain ⟨s, hs, hname⟩ := List.mem_flatMap.mp hn'
      exact hapart t ht s hs hname

/-- Of the names that a service makes, only one can be the name of an imported type. -/
theorem stem_imported (s : Service) (p : Name × Name) (hp : p ∈ s.stems)
    (himported : p.1 ++ p.2 ∈ schema.imported) : s.name = "Grpc".toList := by
  have hclient : ∀ n ∈ Schema.protobufTypes ++ Schema.grpcTypes, ∀ e ∈ endings, e <:+ n →
      n = "Grpc".toList ++ "Client".toList ∧ e = "Client".toList := by decide
  have hall : p.1 ++ p.2 ∈ Schema.protobufTypes ++ Schema.grpcTypes := by
    rw [Schema.imported] at himported
    split_ifs at himported
    · rw [List.append_nil] at himported
      exact List.mem_append_left _ himported
    · exact himported
  obtain ⟨hending, hcases⟩ := s.mem_stems p hp
  obtain ⟨hname, hlast⟩ := hclient _ hall p.2 hending (List.suffix_append _ _)
  have hstem : p.1 = "Grpc".toList := by
    rw [hlast] at hname
    exact List.append_cancel_right hname
  rcases hcases with ⟨-, hstem'⟩ | ⟨hdispatch, -⟩
  · rw [← hstem', hstem]
  · rw [hlast] at hdispatch
    exact absurd hdispatch (by decide)

theorem mem_generate (d : Declaration) : d ∈ schema.generate ↔
    (∃ t ∈ schema.types, d = schema.typeDeclaration t) ∨
      ∃ s ∈ schema.services, d ∈ s.declarations := by
  simp only [Schema.generate, List.mem_append, List.mem_map, List.mem_flatMap, eq_comm]

/-- The members of the class of a message or of an enum. -/
theorem typeDeclaration_members (t : Definition) (ht : t.Sound) :
    ((schema.typeDeclaration t).members.map Member.name).Nodup := by
  cases t with
  | message full name fields => exact messageClass_nodup schema name fields ht
  | enum full name values =>
      have hnames : (schema.typeDeclaration (.enum full name values)).members.map Member.name =
          values.map Prod.fst := by
        simp [Schema.typeDeclaration, Function.comp_def]
      rw [hnames]
      exact ht

/-- The only members of a type that come from the schema are its fields. -/
theorem typeDeclaration_field (t : Definition) (m : Member)
    (hm : m ∈ (schema.typeDeclaration t).members) (horigin : m.origin = .field ∨ m.origin = .rpc) :
    ∃ full name fields, t = .message full name fields ∧ ∃ f ∈ fields, m = ⟨.field, f.name⟩ := by
  cases t with
  | message full name fields =>
      refine ⟨full, name, fields, rfl, ?_⟩
      have hgenerator : ∀ names : List String, m ∈ names.map own → False := by
        intro names hown
        obtain ⟨name, -, rfl⟩ := List.mem_map.mp hown
        rcases horigin with h | h <;> cases h
      rcases List.mem_cons.mp hm with rfl | hm
      · rcases horigin with h | h <;> cases h
      rcases List.mem_append.mp hm with hm | hm
      · obtain ⟨f, hf, hm⟩ := List.mem_flatMap.mp hm
        rcases mem_fieldMembers schema f m hm with rfl | rfl
        · exact ⟨f, hf, rfl⟩
        · rcases horigin with h | h <;> cases h
      · exact absurd hm (hgenerator _)
  | enum full name values =>
      obtain ⟨v, -, rfl⟩ := List.mem_map.mp hm
      rcases horigin with h | h <;> cases h

end Files

namespace Service

variable (s : Service)

theorem mem_declarations (d : Declaration) : d ∈ s.declarations ↔
    d = ⟨.interfaceType, s.name ++ "Service".toList, s.rpcMembers⟩ ∨
    d = ⟨.classType, s.name ++ "Client".toList,
      own "transport" :: own "connect" :: s.rpcMembers⟩ ∨
    d = ⟨.classType, s.name ++ "Binding".toList, [own "service", own "addTo"]⟩ ∨
    ∃ m ∈ s.methods, d = ⟨.function, s.dispatchName m, []⟩ := by
  simp [declarations, eq_comm]

theorem rpcMembers_names : s.rpcMembers.map Member.name = s.methods.map Method.name := by
  simp [rpcMembers, Function.comp_def]

theorem client_nodup_iff (hmethods : (s.methods.map Method.name).Nodup) :
    ((own "transport" :: own "connect" :: s.rpcMembers).map Member.name).Nodup ↔
      ∀ m ∈ s.methods, m.name ≠ "transport".toList ∧ m.name ≠ "connect".toList := by
  have hne : "transport".toList ≠ "connect".toList := by decide
  have hown : ∀ name, (own name).name = name.toList := fun _ ↦ rfl
  rw [List.map_cons, List.map_cons, rpcMembers_names, List.nodup_cons, List.nodup_cons, hown,
    hown, List.mem_cons]
  constructor
  · rintro ⟨htransport, hconnect, -⟩ m hm
    constructor
    · intro heq
      exact htransport (.inr (List.mem_map.mpr ⟨m, hm, heq⟩))
    · intro heq
      exact hconnect (List.mem_map.mpr ⟨m, hm, heq⟩)
  · intro hall
    refine ⟨?_, ?_, hmethods⟩
    · rintro (h | h)
      · exact hne h
      · obtain ⟨m, hm, heq⟩ := List.mem_map.mp h
        exact (hall m hm).1 heq
    · intro h
      obtain ⟨m, hm, heq⟩ := List.mem_map.mp h
      exact (hall m hm).2 heq

/-- The members of a declaration that come from the schema are rpcs. -/
theorem member_rpc (d : Declaration) (hd : d ∈ s.declarations) (m : Member)
    (hm : m ∈ d.members) (horigin : m.origin = .field ∨ m.origin = .rpc) :
    ∃ method ∈ s.methods, m = ⟨.rpc, method.name⟩ := by
  have hrpc : m ∈ s.rpcMembers → ∃ method ∈ s.methods, m = ⟨.rpc, method.name⟩ := by
    intro h
    obtain ⟨method, hmethod, rfl⟩ := List.mem_map.mp h
    exact ⟨method, hmethod, rfl⟩
  have hown : ∀ name, m = own name → False := by
    rintro name rfl
    rcases horigin with h | h <;> cases h
  rcases (s.mem_declarations d).mp hd with rfl | rfl | rfl | ⟨method, -, rfl⟩
  · exact hrpc hm
  · rcases List.mem_cons.mp hm with h | hm
    · exact absurd h (hown _)
    · rcases List.mem_cons.mp hm with h | hm
      · exact absurd h (hown _)
      · exact hrpc hm
  · simp only [List.mem_cons, List.not_mem_nil, or_false] at hm
    rcases hm with h | h
    · exact absurd h (hown _)
    · exact absurd h (hown _)
  · cases hm

theorem declarations_members (hmethods : (s.methods.map Method.name).Nodup)
    (hrpcs : ∀ m ∈ s.methods, m.name ≠ "transport".toList ∧ m.name ≠ "connect".toList)
    (d : Declaration) (hd : d ∈ s.declarations) : (d.members.map Member.name).Nodup := by
  rcases (s.mem_declarations d).mp hd with rfl | rfl | rfl | ⟨method, -, rfl⟩
  · show (s.rpcMembers.map Member.name).Nodup
    rw [rpcMembers_names]
    exact hmethods
  · exact (s.client_nodup_iff hmethods).mpr hrpcs
  · show ["service".toList, "addTo".toList].Nodup
    decide
  · exact List.nodup_nil

end Service

theorem namesApart_of_conflictFree (schema : Schema Path) (hsound : schema.Sound)
    (hfree : ConflictFree schema.imported schema.generate) : NamesApart schema := by
  obtain ⟨⟨hservices, hdispatch⟩, htypes⟩ := (generate_nodup_iff schema hsound).mp hfree.distinct
  have htype : ∀ t ∈ schema.types, schema.typeDeclaration t ∈ schema.generate := fun t ht ↦
    (mem_generate schema _).mpr (.inl ⟨t, ht, rfl⟩)
  have hmem : ∀ s ∈ schema.services, ∀ d ∈ s.declarations, d ∈ schema.generate := fun s hs d hd ↦
    (mem_generate schema d).mpr (.inr ⟨s, hs, hd⟩)
  have hstem : ∀ s ∈ schema.services, ∀ p ∈ s.stems,
      p.1 ++ p.2 ∈ s.declarations.map Declaration.name := by
    intro s _ p hp
    rw [s.names_eq]
    exact List.mem_map_of_mem hp
  have hclient : ∀ s : Service, ⟨.classType, s.name ++ "Client".toList,
      own "transport" :: own "connect" :: s.rpcMembers⟩ ∈ s.declarations := fun s ↦
    (s.mem_declarations _).mpr (.inr (.inl rfl))
  refine ⟨?_, hservices, ?_, ?_, ?_, hdispatch, ?_, ?_⟩
  · intro t ht
    have hname : (schema.typeDeclaration t).name = t.name := by
      cases t <;> rfl
    exact hname ▸ hfree.notImported _ (htype t ht)
  · intro s hs heq
    apply hfree.notImported _ (hmem s hs _ (hclient s))
    have hsome : schema.services ≠ [] := List.ne_nil_of_mem hs
    have hgrpc : "Grpc".toList ++ "Client".toList ∈
        Schema.protobufTypes ++ Schema.grpcTypes := by decide
    rw [heq, Schema.imported, if_neg hsome]
    exact hgrpc
  · intro t ht s hs ending hending heq
    apply htypes t ht s hs
    rw [heq]
    exact hstem s hs (s.name, ending) (List.mem_append_left _ (List.mem_map_of_mem hending))
  · intro t ht s hs m hm heq
    apply htypes t ht s hs
    rw [heq]
    exact hstem s hs (s.name ++ '_' :: m.name, "_dispatch".toList)
      (List.mem_append_right _ (List.mem_map_of_mem hm))
  · intro s hs m hm hname
    have hnodup := hfree.members _ (hmem s hs _ (hclient s))
    have hrpcs := (s.client_nodup_iff (hsound.services s hs)).mp hnodup m hm
    have hrpc : (⟨.rpc, m.name⟩ : Member) ∈ own "transport" :: own "connect" :: s.rpcMembers :=
      List.mem_cons_of_mem _ (List.mem_cons_of_mem _ (List.mem_map_of_mem hm))
    have hinit := (hfree.own _ (hmem s hs _ (hclient s)) ⟨.rpc, m.name⟩ hrpc (.inr rfl)).2
    simp only [List.mem_cons, List.not_mem_nil, or_false] at hname
    rcases hname with h | h | h
    · exact hrpcs.1 h
    · exact hrpcs.2 h
    · exact hinit h
  · intro full name fields ht f hf
    have hmember : (⟨.field, f.name⟩ : Member) ∈
        (schema.typeDeclaration (.message full name fields)).members := by
      apply List.mem_cons_of_mem
      apply List.mem_append_left
      exact List.mem_flatMap.mpr ⟨f, hf, List.mem_cons_self⟩
    exact (hfree.own _ (htype _ ht) _ hmember (.inl rfl)).2

theorem conflictFree_of_namesApart (schema : Schema Path) (hsound : schema.Sound)
    (hapart : NamesApart schema) : ConflictFree schema.imported schema.generate := by
  have hrpcs : ∀ s ∈ schema.services, ∀ m ∈ s.methods,
      m.name ≠ "transport".toList ∧ m.name ≠ "connect".toList ∧ m.name ≠ "init".toList := by
    intro s hs m hm
    simpa using hapart.rpcs s hs m hm
  have hmembers : ∀ d ∈ schema.generate, (d.members.map Member.name).Nodup := by
    intro d hd
    rcases (mem_generate schema d).mp hd with ⟨t, ht, rfl⟩ | ⟨s, hs, hd⟩
    · exact typeDeclaration_members schema t (hsound.types t ht)
    · exact s.declarations_members (hsound.services s hs)
        (fun m hm ↦ ⟨(hrpcs s hs m hm).1, (hrpcs s hs m hm).2.1⟩) d hd
  refine ⟨(generate_nodup_iff schema hsound).mpr
    ⟨⟨hapart.services, hapart.dispatch⟩, ?_⟩, ?_, hmembers, ?_⟩
  · intro t ht s hs hname
    rw [s.names_eq] at hname
    obtain ⟨p, hp, heq⟩ := List.mem_map.mp hname
    rcases (s.mem_stems p hp).2 with ⟨hending, hstem⟩ | ⟨hending, m, hm, hstem⟩
    · exact hapart.typeService t ht s hs p.2 hending (by rw [← heq, hstem])
    · exact hapart.typeDispatch t ht s hs m hm (by rw [← heq, hstem, hending])
  · intro d hd himported
    rcases (mem_generate schema d).mp hd with ⟨t, ht, rfl⟩ | ⟨s, hs, hd⟩
    · have hname : (schema.typeDeclaration t).name = t.name := by
        cases t <;> rfl
      exact hapart.types t ht (hname ▸ himported)
    · have hname : d.name ∈ s.stems.map fun p ↦ p.1 ++ p.2 := by
        rw [← s.names_eq]
        exact List.mem_map_of_mem hd
      obtain ⟨p, hp, heq⟩ := List.mem_map.mp hname
      exact hapart.grpc s hs (stem_imported schema s p hp (heq ▸ himported))
  · intro d hd m hm horigin
    refine ⟨own_of_nodup d.members (hmembers d hd) m hm horigin, ?_⟩
    rcases (mem_generate schema d).mp hd with ⟨t, ht, rfl⟩ | ⟨s, hs, hd⟩
    · obtain ⟨full, name, fields, rfl, f, hf, rfl⟩ :=
        typeDeclaration_field schema t m hm horigin
      exact hapart.fields full name fields ht f hf
    · obtain ⟨method, hmethod, rfl⟩ := s.member_rpc d hd m hm horigin
      exact (hrpcs s hs method hmethod).2.2

/-- The names of a generated file conflict in the cases that `NamesApart` excludes, and in no
others. -/
theorem conflictFree_iff [DecidableEq Path] (host : Host Path) (fuel : ℕ) (path : Path)
    (schema : Schema Path) (h : accepted host fuel path = .ok schema) :
    ConflictFree schema.imported schema.generate ↔ NamesApart schema := by
  have hsound := accepted_sound host fuel path schema h
  constructor
  · exact namesApart_of_conflictFree schema hsound
  · exact conflictFree_of_namesApart schema hsound

/-- The one file `text`, without imports and numbers. -/
def oneFile (text : List String) : Host Unit where
  tokens _ := .ok (text.map String.toList)
  found _ _ := none
  int _ := none
  json _ := none

/-- A file with a service and nothing else. -/
def serviceFile (name : String) : Host Unit :=
  oneFile ["syntax", "=", "\"proto3\"", ";", "service", name, "\x7b", "\x7d"]

def serviceSchema (name : String) : Schema Unit :=
  ⟨[()], [], [⟨name.toList, name.toList, []⟩]⟩

theorem conflictFree_echo :
    ConflictFree (serviceSchema "Echo").imported (serviceSchema "Echo").generate ↔
      NamesApart (serviceSchema "Echo") :=
  conflictFree_iff (serviceFile "Echo") 6 () (serviceSchema "Echo") rfl

/-- A service that is called `Grpc` is accepted, and the class of its client has the name of one
that `std.grpc` declares. -/
theorem grpc_service_conflicts :
    ∃ schema, accepted (serviceFile "Grpc") 6 () = .ok schema ∧
      ¬ConflictFree schema.imported schema.generate := by
  refine ⟨serviceSchema "Grpc", rfl, ?_⟩
  intro hfree
  exact hfree.notImported
    ⟨.classType, "GrpcClient".toList, [own "transport", own "connect"]⟩ (by decide) (by decide)

end TinyCPlus.Protobuf.Proto
