import Mathlib

/-!
# Functions that are left and entered again

Structured code with jumps to labels.  At a suspension the code is left unless what it waits
for is ready; all that is kept is the number of the suspension.  When it is entered again, a
jump leads behind the suspension, into whatever blocks and loops it lies in.  If no two
suspensions have the same number, that makes no difference: the code goes on as one that
waits where it stands does.
-/

namespace TinyCPlus.Library.Resumable

/-- Labels with a name, and those of the suspensions. -/
inductive Label (G : Type*) where
  | named (g : G)
  | state (k : ℕ)
deriving DecidableEq

/-- Code over lines `L` and tests `T`.  `finish` is a line behind which the code ends. -/
inductive Code (L T G : Type*) where
  | line (l : L)
  | cond (t : T) (a b : List (Code L T G))
  | block (body : List (Code L T G))
  | loop (body : List (Code L T G))
  | breakLoop
  | goto (g : G)
  | label (l : Label G)
  | suspend (k : ℕ)
  | finish (l : L)

/-- What is left to do behind a block, or in a loop and behind it. -/
inductive Frame (L T G : Type*) where
  | seq (rest : List (Code L T G))
  | loop (body rest : List (Code L T G))

/-- What lines and tests do, and whether what is waited for is ready. -/
structure Meaning (L T σ : Type*) where
  line : L → σ → Option σ
  test : T → σ → Bool
  ready : σ → Bool

/-- A place in code: what comes next, and what is left behind it. -/
abbrev Place (L T G : Type*) := List (Code L T G) × List (Frame L T G)

section Labels

variable {L T G : Type*}

mutual

/-- The labels in a piece of code. -/
def Code.labels : Code L T G → List (Label G)
  | .cond _ a b => labelsAll a ++ labelsAll b
  | .block body => labelsAll body
  | .loop body => labelsAll body
  | .label l => [l]
  | .suspend k => [.state k]
  | _ => []

def labelsAll : List (Code L T G) → List (Label G)
  | [] => []
  | c :: rest => c.labels ++ labelsAll rest

end

@[simp] theorem labelsAll_nil : labelsAll ([] : List (Code L T G)) = [] := rfl

@[simp] theorem labelsAll_cons (c : Code L T G) (rest : List (Code L T G)) :
    labelsAll (c :: rest) = c.labels ++ labelsAll rest := rfl

@[simp] theorem labelsAll_append (a b : List (Code L T G)) :
    labelsAll (a ++ b) = labelsAll a ++ labelsAll b := by
  induction a with
  | nil => rfl
  | cons c rest ih => rw [List.cons_append, labelsAll_cons, ih, labelsAll_cons, List.append_assoc]

variable [DecidableEq G]

mutual

/-- The place behind a label of a piece of code that `rest` and `K` follow. -/
def Code.find (l : Label G) (rest : List (Code L T G)) (K : List (Frame L T G)) :
    Code L T G → Option (Place L T G)
  | .cond _ a b => (findAll l (.seq rest :: K) a).or (findAll l (.seq rest :: K) b)
  | .block body => findAll l (.seq rest :: K) body
  | .loop body => findAll l (.loop body rest :: K) body
  | .label l' => if l' = l then some (rest, K) else none
  | .suspend k => if .state k = l then some (rest, K) else none
  | _ => none

def findAll (l : Label G) (K : List (Frame L T G)) : List (Code L T G) → Option (Place L T G)
  | [] => none
  | c :: rest => (c.find l rest K).or (findAll l K rest)

end

theorem findAll_cons (l : Label G) (K : List (Frame L T G)) (c : Code L T G)
    (rest : List (Code L T G)) :
    findAll l K (c :: rest) = (c.find l rest K).or (findAll l K rest) := rfl

mutual

theorem Code.isSome_find (l : Label G) (rest : List (Code L T G)) (K : List (Frame L T G)) :
    ∀ c : Code L T G, (c.find l rest K).isSome = true ↔ l ∈ c.labels
  | .cond t a b => by
      rw [Code.find, Code.labels, Option.isSome_or, Bool.or_eq_true, List.mem_append,
        isSome_findAll l _ a, isSome_findAll l _ b]
  | .block body => by rw [Code.find, Code.labels, isSome_findAll]
  | .loop body => by rw [Code.find, Code.labels, isSome_findAll]
  | .label l' => by
      rw [Code.find, Code.labels, List.mem_singleton]
      split <;> simp_all [eq_comm]
  | .suspend k => by
      rw [Code.find, Code.labels, List.mem_singleton]
      split <;> simp_all [eq_comm]
  | .line _ | .breakLoop | .goto _ | .finish _ => by simp [Code.find, Code.labels]

/-- A label is found where there is one. -/
theorem isSome_findAll (l : Label G) (K : List (Frame L T G)) :
    ∀ code : List (Code L T G), (findAll l K code).isSome = true ↔ l ∈ labelsAll code
  | [] => by simp [findAll]
  | c :: rest => by
      rw [findAll_cons, Option.isSome_or, Bool.or_eq_true, Code.isSome_find l rest K c,
        isSome_findAll l K rest, labelsAll_cons, List.mem_append]

end

theorem find_eq_none {l : Label G} {c : Code L T G} (h : l ∉ c.labels) (rest : List (Code L T G))
    (K : List (Frame L T G)) : c.find l rest K = none := by
  rw [← Option.not_isSome_iff_eq_none, c.isSome_find]
  exact h

theorem findAll_eq_none {l : Label G} {code : List (Code L T G)} (h : l ∉ labelsAll code)
    (K : List (Frame L T G)) : findAll l K code = none := by
  rw [← Option.not_isSome_iff_eq_none, isSome_findAll]
  exact h

end Labels

/-! ## Places -/

section Places

variable {L T G : Type*}

/-- The places of a whole piece of code; there is none behind the end of it. -/
inductive At (whole : List (Code L T G)) : List (Code L T G) → List (Frame L T G) → Prop where
  | start : At whole whole []
  | next {c : Code L T G} {rest : List (Code L T G)} {K : List (Frame L T G)} :
      At whole (c :: rest) K → (∀ l, c = .finish l → rest ≠ []) → At whole rest K
  | left {t : T} {a b rest : List (Code L T G)} {K : List (Frame L T G)} :
      At whole (.cond t a b :: rest) K → At whole a (.seq rest :: K)
  | right {t : T} {a b rest : List (Code L T G)} {K : List (Frame L T G)} :
      At whole (.cond t a b :: rest) K → At whole b (.seq rest :: K)
  | block {body rest : List (Code L T G)} {K : List (Frame L T G)} :
      At whole (.block body :: rest) K → At whole body (.seq rest :: K)
  | loop {body rest : List (Code L T G)} {K : List (Frame L T G)} :
      At whole (.loop body :: rest) K → At whole body (.loop body rest :: K)

/-- What is left behind a place is a place as well. -/
def Behind (whole : List (Code L T G)) : List (Frame L T G) → Prop
  | [] => True
  | .seq rest :: K => At whole rest K ∧ Behind whole K
  | .loop body rest :: K =>
      At whole rest K ∧ At whole body (.loop body rest :: K) ∧ Behind whole K

variable {whole code : List (Code L T G)} {K : List (Frame L T G)}

theorem At.behind (h : At whole code K) : Behind whole K := by
  induction h with
  | start => trivial
  | next _ _ ih => exact ih
  | left h ih => exact ⟨h.next nofun, ih⟩
  | right h ih => exact ⟨h.next nofun, ih⟩
  | block h ih => exact ⟨h.next nofun, ih⟩
  | loop h ih => exact ⟨h.next nofun, h.loop, ih⟩

/-- The labels of a place are labels of the whole, and none of them occurs twice. -/
theorem At.nodup (h : At whole code K) (hwhole : (labelsAll whole).Nodup) :
    (labelsAll code).Nodup := by
  induction h with
  | start => exact hwhole
  | next _ _ ih =>
      rw [labelsAll_cons] at ih
      exact ih.of_append_right
  | left _ ih =>
      rw [labelsAll_cons, Code.labels] at ih
      exact ih.of_append_left.of_append_left
  | right _ ih =>
      rw [labelsAll_cons, Code.labels] at ih
      exact ih.of_append_left.of_append_right
  | block _ ih =>
      rw [labelsAll_cons, Code.labels] at ih
      exact ih.of_append_left
  | loop _ ih =>
      rw [labelsAll_cons, Code.labels] at ih
      exact ih.of_append_left

variable [DecidableEq G]

/-- A label that lies ahead of a place is found there. -/
theorem At.findAll_eq (h : At whole code K) (hwhole : (labelsAll whole).Nodup) {l : Label G}
    (hl : l ∈ labelsAll code) : findAll l [] whole = findAll l K code := by
  induction h with
  | start => rfl
  | @next c rest K h _ ih =>
      have hnodup := h.nodup hwhole
      rw [labelsAll_cons] at hnodup
      have hc : l ∉ c.labels := fun hmem ↦ (List.disjoint_of_nodup_append hnodup) hmem hl
      rw [ih (List.mem_append_right _ hl), findAll_cons, find_eq_none hc, Option.none_or]
  | @left t a b rest K h ih =>
      have hsome := (isSome_findAll l (.seq rest :: K) a).mpr hl
      obtain ⟨place, hplace⟩ := Option.isSome_iff_exists.mp hsome
      have hcond : l ∈ (Code.cond t a b).labels := List.mem_append_left _ hl
      rw [ih (List.mem_append_left _ hcond), findAll_cons, Code.find, hplace, Option.some_or,
        Option.some_or]
  | @right t a b rest K h ih =>
      have hnodup := (h.nodup hwhole).of_append_left
      rw [Code.labels] at hnodup
      have ha : l ∉ labelsAll a := fun hmem ↦ (List.disjoint_of_nodup_append hnodup) hmem hl
      have hsome := (isSome_findAll l (.seq rest :: K) b).mpr hl
      obtain ⟨place, hplace⟩ := Option.isSome_iff_exists.mp hsome
      have hcond : l ∈ (Code.cond t a b).labels := List.mem_append_right _ hl
      rw [ih (List.mem_append_left _ hcond), findAll_cons, Code.find, findAll_eq_none ha, hplace,
        Option.none_or, Option.some_or]
  | @block body rest K h ih =>
      have hsome := (isSome_findAll l (.seq rest :: K) body).mpr hl
      obtain ⟨place, hplace⟩ := Option.isSome_iff_exists.mp hsome
      rw [ih (List.mem_append_left _ hl), findAll_cons, Code.find, hplace, Option.some_or]
  | @loop body rest K h ih =>
      have hsome := (isSome_findAll l (.loop body rest :: K) body).mpr hl
      obtain ⟨place, hplace⟩ := Option.isSome_iff_exists.mp hsome
      rw [ih (List.mem_append_left _ hl), findAll_cons, Code.find, hplace, Option.some_or]

/-- The place of a suspension is what its number is found for. -/
theorem At.suspend_eq {k : ℕ} {rest : List (Code L T G)} (h : At whole (.suspend k :: rest) K)
    (hwhole : (labelsAll whole).Nodup) : findAll (.state k) [] whole = some (rest, K) := by
  rw [h.findAll_eq hwhole (List.mem_append_left _ (List.mem_singleton_self _)), findAll_cons,
    Code.find, if_pos rfl, Option.some_or]

end Places

section Jumps

variable {L T G : Type*} {whole : List (Code L T G)} [DecidableEq G]

mutual

theorem At.of_find (l : Label G) (rest : List (Code L T G)) (K : List (Frame L T G))
    (place : Place L T G) : ∀ c : Code L T G, At whole (c :: rest) K →
      c.find l rest K = some place → At whole place.1 place.2
  | .cond t a b, h, hfind => by
      rw [Code.find, Option.or_eq_some_iff] at hfind
      rcases hfind with hfind | ⟨-, hfind⟩
      · exact At.of_findAll l _ place a h.left hfind
      · exact At.of_findAll l _ place b h.right hfind
  | .block body, h, hfind => At.of_findAll l _ place body h.block hfind
  | .loop body, h, hfind => At.of_findAll l _ place body h.loop hfind
  | .label l', h, hfind => by
      rw [Code.find, Option.ite_none_right_eq_some] at hfind
      obtain ⟨-, hplace⟩ := hfind
      cases hplace
      exact h.next nofun
  | .suspend k, h, hfind => by
      rw [Code.find, Option.ite_none_right_eq_some] at hfind
      obtain ⟨-, hplace⟩ := hfind
      cases hplace
      exact h.next nofun
  | .line _, _, hfind => nomatch hfind
  | .breakLoop, _, hfind => nomatch hfind
  | .goto _, _, hfind => nomatch hfind
  | .finish _, _, hfind => nomatch hfind

/-- A label leads to a place. -/
theorem At.of_findAll (l : Label G) (K : List (Frame L T G)) (place : Place L T G) :
    ∀ code : List (Code L T G), At whole code K → findAll l K code = some place →
      At whole place.1 place.2
  | [], _, hfind => by cases hfind
  | c :: rest, h, hfind => by
      rw [findAll_cons, Option.or_eq_some_iff] at hfind
      rcases hfind with hfind | ⟨-, hfind⟩
      · exact At.of_find l rest K place c h hfind
      · refine At.of_findAll l K place rest (h.next fun _ _ hnil ↦ ?_) hfind
        rw [hnil] at hfind
        cases hfind

end

end Jumps

/-! ## Runs -/

section Runs

variable {L T G σ : Type*} [DecidableEq G] (M : Meaning L T σ) (whole : List (Code L T G))

/-- The place behind the innermost loop. -/
def popLoop : List (Frame L T G) → Option (Place L T G)
  | [] => none
  | .seq _ :: K => popLoop K
  | .loop _ rest :: K => some (rest, K)

/-- What one step at a place leads to. -/
inductive Next (L T G σ : Type*) where
  | goes (place : Place L T G) (s : σ)
  | suspended (k : ℕ) (place : Place L T G) (s : σ)
  | finished (s : σ)
  | aborted
  | stuck

/-- One step.  A jump looks for its label in the whole code; code that runs off its end is
stuck, and so is a jump without a label. -/
def advance : Place L T G → σ → Next L T G σ
  | ([], []), _ => .stuck
  | ([], .seq rest :: K), s => .goes (rest, K) s
  | ([], .loop body rest :: K), s => .goes (body, .loop body rest :: K) s
  | (.line l :: rest, K), s =>
      match M.line l s with
      | some s => .goes (rest, K) s
      | none => .aborted
  | (.cond t a b :: rest, K), s => .goes (if M.test t s then a else b, .seq rest :: K) s
  | (.block body :: rest, K), s => .goes (body, .seq rest :: K) s
  | (.loop body :: rest, K), s => .goes (body, .loop body rest :: K) s
  | (.breakLoop :: _, K), s =>
      match popLoop K with
      | some place => .goes place s
      | none => .stuck
  | (.goto g :: _, _), s =>
      match findAll (.named g) [] whole with
      | some place => .goes place s
      | none => .stuck
  | (.label _ :: rest, K), s => .goes (rest, K) s
  | (.suspend k :: rest, K), s =>
      if M.ready s then .goes (rest, K) s else .suspended k (rest, K) s
  | (.finish l :: _, _), s =>
      match M.line l s with
      | some s => .finished s
      | none => .aborted

/-- The code runs, or waits with what it has kept of its place. -/
inductive Config (L T G σ W : Type*) where
  | running (place : Place L T G) (s : σ)
  | waiting (kept : W) (s : σ)
  | finished (s : σ)
  | aborted
  | stuck

/-- The same with less kept. -/
def Config.map {W W' : Type*} (f : W → W') : Config L T G σ W → Config L T G σ W'
  | .running place s => .running place s
  | .waiting kept s => .waiting (f kept) s
  | .finished s => .finished s
  | .aborted => .aborted
  | .stuck => .stuck

/-- One step of the code, or one of the world while the code waits: it may change the state
and enter the code again. -/
def step {W : Type*} (keep : ℕ → Place L T G → W) (enter : W → Option (Place L T G)) :
    Config L T G σ W → Option σ → Config L T G σ W
  | .running place s, _ =>
      match advance M whole place s with
      | .goes place s => .running place s
      | .suspended k place s => .waiting (keep k place) s
      | .finished s => .finished s
      | .aborted => .aborted
      | .stuck => .stuck
  | .waiting kept _, some s =>
      match enter kept with
      | some place => .running place s
      | none => .stuck
  | .waiting kept s, none => .waiting kept s
  | .finished s, _ => .finished s
  | .aborted, _ => .aborted
  | .stuck, _ => .stuck

/-- Code that waits where it stands. -/
def direct : Config L T G σ (ℕ × Place L T G) → Option σ → Config L T G σ (ℕ × Place L T G) :=
  step M whole Prod.mk fun kept ↦ some kept.2

/-- Code that is left with the number of the suspension and entered by a jump. -/
def resumed : Config L T G σ ℕ → Option σ → Config L T G σ ℕ :=
  step M whole (fun k _ ↦ k) fun k ↦ findAll (.state k) [] whole

variable {M whole}

/-- Code that runs is at a place, and code that waits is at the place of its number. -/
def Placed (whole : List (Code L T G)) : Config L T G σ (ℕ × Place L T G) → Prop
  | .running place _ => At whole place.1 place.2
  | .waiting kept _ =>
      findAll (.state kept.1) [] whole = some kept.2 ∧ At whole kept.2.1 kept.2.2
  | _ => True

omit [DecidableEq G] in
theorem At.of_popLoop {K : List (Frame L T G)} {place : Place L T G} (h : Behind whole K)
    (hpop : popLoop K = some place) : At whole place.1 place.2 := by
  induction K with
  | nil => cases hpop
  | cons frame K ih =>
      cases frame with
      | seq rest => exact ih h.2 hpop
      | loop body rest =>
          cases hpop
          exact h.1

/-- A step from a place leads to a place. -/
theorem At.advance_goes {place place' : Place L T G} {s s' : σ} (h : At whole place.1 place.2)
    (hstep : advance M whole place s = .goes place' s') : At whole place'.1 place'.2 := by
  obtain ⟨code, K⟩ := place
  dsimp only at h
  cases code with
  | nil =>
      cases K with
      | nil => cases hstep
      | cons frame K =>
          have hbehind := h.behind
          cases frame with
          | seq rest =>
              cases hstep
              exact hbehind.1
          | loop body rest =>
              cases hstep
              exact hbehind.2.1
  | cons c rest =>
      cases c with
      | line l =>
          rw [advance] at hstep
          split at hstep
          · cases hstep
            exact h.next nofun
          · cases hstep
      | cond t a b =>
          cases hstep
          split
          · exact h.left
          · exact h.right
      | block body =>
          cases hstep
          exact h.block
      | loop body =>
          cases hstep
          exact h.loop
      | breakLoop =>
          rw [advance] at hstep
          split at hstep
          · rename_i hpop
            cases hstep
            exact At.of_popLoop h.behind hpop
          · cases hstep
      | goto g =>
          rw [advance] at hstep
          split at hstep
          · rename_i hfind
            cases hstep
            exact At.of_findAll _ _ _ _ .start hfind
          · cases hstep
      | label l =>
          cases hstep
          exact h.next nofun
      | suspend k =>
          rw [advance] at hstep
          split at hstep
          · cases hstep
            exact h.next nofun
          · cases hstep
      | finish l =>
          rw [advance] at hstep
          split at hstep <;> cases hstep

/-- A suspension is left at its place. -/
theorem At.advance_suspended {place place' : Place L T G} {s s' : σ} {k : ℕ}
    (h : At whole place.1 place.2) (hstep : advance M whole place s = .suspended k place' s') :
    place.1 = .suspend k :: place'.1 ∧ place.2 = place'.2 := by
  obtain ⟨code, K⟩ := place
  match code, K with
  | [], [] => cases hstep
  | [], .seq _ :: _ => cases hstep
  | [], .loop _ _ :: _ => cases hstep
  | .suspend k' :: rest, K =>
      rw [advance] at hstep
      split at hstep
      · cases hstep
      · cases hstep
        exact ⟨rfl, rfl⟩
  | .line l :: rest, K => rw [advance] at hstep; split at hstep <;> cases hstep
  | .finish l :: rest, K => rw [advance] at hstep; split at hstep <;> cases hstep
  | .breakLoop :: rest, K => rw [advance] at hstep; split at hstep <;> cases hstep
  | .goto g :: rest, K => rw [advance] at hstep; split at hstep <;> cases hstep
  | .cond t a b :: rest, K => cases hstep
  | .block body :: rest, K => cases hstep
  | .loop body :: rest, K => cases hstep
  | .label l :: rest, K => cases hstep

/-- One step of code that is left and entered again is the step of code that waits. -/
theorem resumed_map (hwhole : (labelsAll whole).Nodup) {c : Config L T G σ (ℕ × Place L T G)}
    (h : Placed whole c) (input : Option σ) :
    resumed M whole (c.map Prod.fst) input = (direct M whole c input).map Prod.fst ∧
      Placed whole (direct M whole c input) := by
  cases c with
  | running place s =>
      rw [Config.map, resumed, direct, step, step]
      cases hstep : advance M whole place s with
      | goes place' s' => exact ⟨rfl, At.advance_goes h hstep⟩
      | suspended k place' s' =>
          obtain ⟨hcode, hK⟩ := At.advance_suspended h hstep
          have hplace : At whole (.suspend k :: place'.1) place'.2 := hcode ▸ hK ▸ h
          exact ⟨rfl, hplace.suspend_eq hwhole, hplace.next nofun⟩
      | finished s' => exact ⟨rfl, trivial⟩
      | aborted => exact ⟨rfl, trivial⟩
      | stuck => exact ⟨rfl, trivial⟩
  | waiting kept s =>
      cases input with
      | none => exact ⟨rfl, h⟩
      | some s' =>
          rw [Config.map, resumed, direct, step, step, h.1]
          exact ⟨rfl, h.2⟩
  | finished s => exact ⟨rfl, trivial⟩
  | aborted => exact ⟨rfl, trivial⟩
  | stuck => exact ⟨rfl, trivial⟩

/-- A run of code that is left and entered again is the run of code that waits. -/
theorem resumed_run (hwhole : (labelsAll whole).Nodup) {c : Config L T G σ (ℕ × Place L T G)}
    (h : Placed whole c) (inputs : List (Option σ)) :
    inputs.foldl (resumed M whole) (c.map Prod.fst) =
        (inputs.foldl (direct M whole) c).map Prod.fst ∧
      Placed whole (inputs.foldl (direct M whole) c) := by
  induction inputs generalizing c with
  | nil => exact ⟨rfl, h⟩
  | cons input rest ih =>
      obtain ⟨hmap, hplaced⟩ := resumed_map hwhole h input
      rw [List.foldl_cons, List.foldl_cons, hmap]
      exact ih hplaced

/-! ## Code that does not get stuck -/

section Structure

omit [DecidableEq G]

mutual

/-- The jumps in a piece of code. -/
def Code.jumps : Code L T G → List G
  | .cond _ a b => jumpsAll a ++ jumpsAll b
  | .block body => jumpsAll body
  | .loop body => jumpsAll body
  | .goto g => [g]
  | _ => []

def jumpsAll : List (Code L T G) → List G
  | [] => []
  | c :: rest => c.jumps ++ jumpsAll rest

/-- There is a loop around every exit of a loop; `inside` tells that there is one around the
piece of code. -/
def Code.exits (inside : Bool) : Code L T G → Bool
  | .cond _ a b => exitsAll inside a && exitsAll inside b
  | .block body => exitsAll inside body
  | .loop body => exitsAll true body
  | .breakLoop => inside
  | _ => true

def exitsAll (inside : Bool) : List (Code L T G) → Bool
  | [] => true
  | c :: rest => c.exits inside && exitsAll inside rest

end

@[simp] theorem jumpsAll_nil : jumpsAll ([] : List (Code L T G)) = [] := rfl

@[simp] theorem jumpsAll_cons (c : Code L T G) (rest : List (Code L T G)) :
    jumpsAll (c :: rest) = c.jumps ++ jumpsAll rest := rfl

@[simp] theorem exitsAll_nil (inside : Bool) :
    exitsAll inside ([] : List (Code L T G)) = true := rfl

@[simp] theorem exitsAll_cons (inside : Bool) (c : Code L T G) (rest : List (Code L T G)) :
    exitsAll inside (c :: rest) = (c.exits inside && exitsAll inside rest) := rfl

@[simp] theorem jumpsAll_append (a b : List (Code L T G)) :
    jumpsAll (a ++ b) = jumpsAll a ++ jumpsAll b := by
  induction a with
  | nil => rfl
  | cons c rest ih => rw [List.cons_append, jumpsAll_cons, ih, jumpsAll_cons, List.append_assoc]

@[simp] theorem exitsAll_append (inside : Bool) (a b : List (Code L T G)) :
    exitsAll inside (a ++ b) = (exitsAll inside a && exitsAll inside b) := by
  induction a with
  | nil => rfl
  | cons c rest ih => rw [List.cons_append, exitsAll_cons, ih, exitsAll_cons, Bool.and_assoc]

theorem At.jumps {code : List (Code L T G)} {K : List (Frame L T G)} (h : At whole code K) :
    ∀ g ∈ jumpsAll code, g ∈ jumpsAll whole := by
  induction h with
  | start => exact fun g hg ↦ hg
  | next _ _ ih => exact fun g hg ↦ ih g (List.mem_append_right _ hg)
  | left _ ih =>
      exact fun g hg ↦ ih g (List.mem_append_left _ (List.mem_append_left _ hg))
  | right _ ih =>
      exact fun g hg ↦ ih g (List.mem_append_left _ (List.mem_append_right _ hg))
  | block _ ih => exact fun g hg ↦ ih g (List.mem_append_left _ hg)
  | loop _ ih => exact fun g hg ↦ ih g (List.mem_append_left _ hg)

theorem At.exits {code : List (Code L T G)} {K : List (Frame L T G)} (h : At whole code K)
    (hwhole : exitsAll false whole = true) : exitsAll (popLoop K).isSome code = true := by
  induction h with
  | start => exact hwhole
  | next _ _ ih => exact (Bool.and_eq_true_iff.mp ih).2
  | left _ ih => exact (Bool.and_eq_true_iff.mp (Bool.and_eq_true_iff.mp ih).1).1
  | right _ ih => exact (Bool.and_eq_true_iff.mp (Bool.and_eq_true_iff.mp ih).1).2
  | block _ ih => exact (Bool.and_eq_true_iff.mp ih).1
  | loop _ ih => exact (Bool.and_eq_true_iff.mp ih).1

/-- What comes next outside of all blocks is the end of the whole. -/
theorem At.suffix {code front : List (Code L T G)} {K : List (Frame L T G)} {l : L}
    (h : At (front ++ [.finish l]) code K) (hK : K = []) : ∃ code', code = code' ++ [.finish l] := by
  induction h with
  | start => exact ⟨front, rfl⟩
  | @next c rest K _ hc ih =>
      obtain ⟨code', hcode⟩ := ih hK
      cases code' with
      | nil =>
          obtain ⟨rfl, rfl⟩ := List.cons.inj hcode
          exact absurd rfl (hc l rfl)
      | cons c' code' =>
          obtain ⟨-, rfl⟩ := List.cons.inj hcode
          exact ⟨code', rfl⟩
  | left _ _ => cases hK
  | right _ _ => cases hK
  | block _ _ => cases hK
  | loop _ _ => cases hK

end Structure

/-- Jumps and loops are in order: there is a label for every jump, a loop around every exit
of a loop, and the code does not run off its end. -/
structure Sound (whole : List (Code L T G)) : Prop where
  jumps : ∀ g ∈ jumpsAll whole, .named g ∈ labelsAll whole
  exits : exitsAll false whole = true
  ends : ∃ front l, whole = front ++ [.finish l]

theorem Sound.advance_ne (h : Sound whole) {place : Place L T G} (hplace : At whole place.1 place.2)
    (s : σ) : advance M whole place s ≠ .stuck := by
  obtain ⟨code, K⟩ := place
  match code, K with
  | [], [] =>
      obtain ⟨front, l, rfl⟩ := h.ends
      obtain ⟨code', hcode⟩ := hplace.suffix rfl
      exact absurd hcode (by simp)
  | [], .seq _ :: _ => nofun
  | [], .loop _ _ :: _ => nofun
  | .line l :: rest, K => rw [advance]; split <;> nofun
  | .finish l :: rest, K => rw [advance]; split <;> nofun
  | .suspend k :: rest, K => rw [advance]; split <;> nofun
  | .cond t a b :: rest, K => nofun
  | .block body :: rest, K => nofun
  | .loop body :: rest, K => nofun
  | .label l :: rest, K => nofun
  | .breakLoop :: rest, K =>
      have hinside := (Bool.and_eq_true_iff.mp (hplace.exits h.exits)).1
      obtain ⟨place, hpop⟩ := Option.isSome_iff_exists.mp hinside
      rw [advance, hpop]
      nofun
  | .goto g :: rest, K =>
      have hlabel := h.jumps g (hplace.jumps g List.mem_cons_self)
      obtain ⟨place, hfind⟩ := Option.isSome_iff_exists.mp
        ((isSome_findAll (.named g) [] whole).mpr hlabel)
      rw [advance, hfind]
      nofun

/-- Sound code never gets stuck. -/
theorem Sound.direct_run (h : Sound whole) (hwhole : (labelsAll whole).Nodup)
    {c : Config L T G σ (ℕ × Place L T G)} (hplaced : Placed whole c) (hc : c ≠ .stuck)
    (inputs : List (Option σ)) : inputs.foldl (direct M whole) c ≠ .stuck := by
  induction inputs generalizing c with
  | nil => exact hc
  | cons input rest ih =>
      refine ih (resumed_map hwhole hplaced input).2 ?_
      cases c with
      | running place s =>
          rw [direct, step]
          have hne := h.advance_ne (M := M) hplaced s
          cases hstep : advance M whole place s with
          | stuck => exact absurd hstep hne
          | goes place' s' => nofun
          | suspended k place' s' => nofun
          | finished s' => nofun
          | aborted => nofun
      | waiting kept s =>
          cases input with
          | none => nofun
          | some s' => nofun
      | finished s => nofun
      | aborted => nofun
      | stuck => exact absurd rfl hc

end Runs

end TinyCPlus.Library.Resumable
