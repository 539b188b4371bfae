import TinyCPlus.Runtime.Await

/-!
# Frames that wait

A suspended frame is in the list of the future that it waits for or in the
queue of the pool, and no frame that runs is in any of them.
-/

namespace TinyCPlus.Runtime

variable {ι H : Type*}

/-- A frame is in the queue of the pool or in the list of its future at most
once, and only while it is suspended. -/
structure Parked (frames : ι → Option (AsyncFrame H)) (jobs : List ι) (listed : H → List ι) :
    Prop where
  jobs_nodup : jobs.Nodup
  listed_nodup : ∀ h, (listed h).Nodup
  apart : ∀ h, ∀ i ∈ listed h, i ∉ jobs
  job : ∀ i ∈ jobs, ∃ f, frames i = some f ∧ f.suspended = true
  waits : ∀ h, ∀ i ∈ listed h, ∃ f, frames i = some f ∧ f.suspended = true ∧ f.waiting = some h

namespace Parked

variable {frames : ι → Option (AsyncFrame H)} {jobs : List ι} {listed : H → List ι}

theorem notMem_jobs (h : Parked frames jobs listed) {i : ι}
    (hi : ∀ f, frames i = some f → f.suspended = false) : i ∉ jobs := by
  intro hmem
  obtain ⟨f, hf, hsuspended⟩ := h.job i hmem
  exact Bool.false_ne_true ((hi f hf).symm.trans hsuspended)

theorem notMem_listed (h : Parked frames jobs listed) {i : ι}
    (hi : ∀ f, frames i = some f → f.suspended = false) (h' : H) : i ∉ listed h' := by
  intro hmem
  obtain ⟨f, hf, hsuspended, -⟩ := h.waits h' i hmem
  exact Bool.false_ne_true ((hi f hf).symm.trans hsuspended)

/-- A list may lose continuations. -/
theorem drop [DecidableEq H] (h : Parked frames jobs listed) (h' : H) :
    Parked frames jobs (Function.update listed h' []) where
  jobs_nodup := h.jobs_nodup
  listed_nodup := by
    intro l
    by_cases hl : l = h'
    · rw [hl, Function.update_self]
      exact List.nodup_nil
    · rw [Function.update_of_ne hl]
      exact h.listed_nodup l
  apart := by
    intro l i hi
    by_cases hl : l = h'
    · rw [hl, Function.update_self] at hi
      cases hi
    · rw [Function.update_of_ne hl] at hi
      exact h.apart l i hi
  job := h.job
  waits := by
    intro l i hi
    by_cases hl : l = h'
    · rw [hl, Function.update_self] at hi
      cases hi
    · rw [Function.update_of_ne hl] at hi
      exact h.waits l i hi

/-- The continuations of a future become jobs. -/
theorem submit [DecidableEq H] (h : Parked frames jobs listed) (h' : H) :
    Parked frames (jobs ++ listed h') (Function.update listed h' []) where
  jobs_nodup := by
    refine List.nodup_append.mpr ⟨h.jobs_nodup, h.listed_nodup h', ?_⟩
    rintro i hi j hj rfl
    exact h.apart h' i hj hi
  listed_nodup := (h.drop h').listed_nodup
  apart := by
    intro l i hi hmem
    by_cases hl : l = h'
    · rw [hl, Function.update_self] at hi
      cases hi
    · rw [Function.update_of_ne hl] at hi
      rcases List.mem_append.mp hmem with hmem | hmem
      · exact h.apart l i hi hmem
      · obtain ⟨f, hf, -, hw⟩ := h.waits l i hi
        obtain ⟨g, hg, -, hw'⟩ := h.waits h' i hmem
        obtain rfl : f = g := Option.some.inj (hf.symm.trans hg)
        exact hl (Option.some.inj (hw.symm.trans hw'))
  job := by
    intro i hi
    rcases List.mem_append.mp hi with hi | hi
    · exact h.job i hi
    · obtain ⟨f, hf, hsuspended, -⟩ := h.waits h' i hi
      exact ⟨f, hf, hsuspended⟩
  waits := (h.drop h').waits

variable [DecidableEq ι] {i : ι}

/-- A frame that runs, or is not there, may change. -/
theorem setFrame (h : Parked frames jobs listed)
    (hi : ∀ f, frames i = some f → f.suspended = false) (x : Option (AsyncFrame H)) :
    Parked (Function.update frames i x) jobs listed where
  jobs_nodup := h.jobs_nodup
  listed_nodup := h.listed_nodup
  apart := h.apart
  job := by
    intro j hj
    have hne : j ≠ i := by
      rintro rfl
      exact h.notMem_jobs hi hj
    rw [Function.update_of_ne hne]
    exact h.job j hj
  waits := by
    intro l j hj
    have hne : j ≠ i := by
      rintro rfl
      exact h.notMem_listed hi l hj
    rw [Function.update_of_ne hne]
    exact h.waits l j hj

/-- A frame that is suspended gives its step function to the pool. -/
theorem queue (h : Parked frames jobs listed)
    (hi : ∀ f, frames i = some f → f.suspended = false) {g : AsyncFrame H}
    (hg : g.suspended = true) : Parked (Function.update frames i (some g)) (jobs ++ [i]) listed where
  jobs_nodup := by
    refine List.nodup_append.mpr ⟨h.jobs_nodup, List.nodup_singleton i, ?_⟩
    rintro j hj k hk rfl
    exact h.notMem_jobs hi (List.mem_singleton.mp hk ▸ hj)
  listed_nodup := h.listed_nodup
  apart := by
    intro l j hj hmem
    rcases List.mem_append.mp hmem with hmem | hmem
    · exact h.apart l j hj hmem
    · exact h.notMem_listed hi l (List.mem_singleton.mp hmem ▸ hj)
  job := by
    intro j hj
    rcases List.mem_append.mp hj with hj | hj
    · exact (h.setFrame hi (some g)).job j hj
    · rw [List.mem_singleton.mp hj, Function.update_self]
      exact ⟨g, rfl, hg⟩
  waits := (h.setFrame hi (some g)).waits

/-- A frame that is suspended gives its step function to the future it waits for. -/
theorem list [DecidableEq H] (h : Parked frames jobs listed)
    (hi : ∀ f, frames i = some f → f.suspended = false) {g : AsyncFrame H}
    (hg : g.suspended = true) {h' : H} (hw : g.waiting = some h') :
    Parked (Function.update frames i (some g)) jobs
      (Function.update listed h' (i :: listed h')) where
  jobs_nodup := h.jobs_nodup
  listed_nodup := by
    intro l
    by_cases hl : l = h'
    · rw [hl, Function.update_self]
      exact List.nodup_cons.mpr ⟨h.notMem_listed hi h', h.listed_nodup h'⟩
    · rw [Function.update_of_ne hl]
      exact h.listed_nodup l
  apart := by
    intro l j hj
    by_cases hl : l = h'
    · rw [hl, Function.update_self] at hj
      rcases List.mem_cons.mp hj with rfl | hj
      · exact h.notMem_jobs hi
      · exact h.apart h' j hj
    · rw [Function.update_of_ne hl] at hj
      exact h.apart l j hj
  job := (h.setFrame hi (some g)).job
  waits := by
    intro l j hj
    by_cases hl : l = h'
    · rw [hl, Function.update_self] at hj
      rcases List.mem_cons.mp hj with rfl | hj
      · rw [Function.update_self, hl]
        exact ⟨g, rfl, hg, hw⟩
      · rw [hl]
        exact (h.setFrame hi (some g)).waits h' j hj
    · rw [Function.update_of_ne hl] at hj
      exact (h.setFrame hi (some g)).waits l j hj

/-- A job that the pool takes belongs to no list afterwards. -/
theorem take (h : Parked frames jobs listed) (hi : i ∈ jobs) (x : Option (AsyncFrame H)) :
    Parked (Function.update frames i x) (jobs.erase i) listed := by
  have hjobs {j : ι} (hj : j ∈ jobs.erase i) : j ≠ i ∧ j ∈ jobs := h.jobs_nodup.mem_erase_iff.mp hj
  have hlisted {l : H} {j : ι} (hj : j ∈ listed l) : j ≠ i := by
    rintro rfl
    exact h.apart l j hj hi
  constructor
  · exact h.jobs_nodup.erase i
  · exact h.listed_nodup
  · intro l j hj hmem
    exact h.apart l j hj (hjobs hmem).2
  · intro j hj
    rw [Function.update_of_ne (hjobs hj).1]
    exact h.job j (hjobs hj).2
  · intro l j hj
    rw [Function.update_of_ne (hlisted hj)]
    exact h.waits l j hj

end Parked

end TinyCPlus.Runtime
