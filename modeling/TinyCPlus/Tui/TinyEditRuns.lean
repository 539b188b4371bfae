import TinyCPlus.Tui.TinyEdit

/-!
# TinyEdit does not lose text

Whatever the events are, a clean buffer holds the text on disk.  Drawing and dispatching
leave the buffers of the tree as they are, but for the focused text box, and the calls on
a buffer keep `KeepsSaved`.
-/

namespace TinyCPlus.Tui

open TinyCPlus.Runtime

/-! ## The buffers of a tree -/

/-- What layout and drawing leave as it is. -/
def WidgetFields.content (own : WidgetFields) : ℕ × Option TcGap := (own.address, own.buffer)

theorem WidgetFields.address_withBuffer (g : TcGap) (own : WidgetFields) :
    (own.withBuffer g).address = own.address := rfl

theorem WidgetFields.address_withText (text : List UInt8) (own : WidgetFields) :
    (own.withText text).address = own.address := rfl

namespace TcWidget

/-- The fields of all widgets of some trees. -/
def allFields (children : List TcWidget) : List WidgetFields := (allSubtrees children).map own

theorem fields_mk (own : WidgetFields) (children : List TcWidget) :
    (mk own children).fields = own :: allFields children := by
  rw [fields, subtrees, List.map_cons, own_mk, allFields]

@[simp] theorem allFields_nil : allFields [] = [] := rfl

theorem allFields_cons (child : TcWidget) (rest : List TcWidget) :
    allFields (child :: rest) = child.fields ++ allFields rest := by
  rw [allFields, allSubtrees, List.map_append, fields, allFields]

mutual

theorem content_layout (w : TcWidget) (area : Rect) :
    (w.layout area).fields.map WidgetFields.content = w.fields.map WidgetFields.content :=
  match w with
  | .mk own children => by
      rw [layout, fields_mk, fields_mk, List.map_cons, List.map_cons,
        content_layoutChildren children]
      rfl

theorem content_layoutChildren (children : List TcWidget) (kind : WidgetKind) (vertical : Bool)
    (content : Rect) (total flex position : ℤ) :
    (allFields (layoutChildren kind vertical content children total flex position)).map
        WidgetFields.content = (allFields children).map WidgetFields.content :=
  match children with
  | [] => rfl
  | child :: rest => by
      rw [layoutChildren]
      split <;>
        rw [allFields_cons, allFields_cons, List.map_append, List.map_append,
          content_layout child, content_layoutChildren rest]

end

mutual

theorem content_afterDraw (w : TcWidget) :
    w.afterDraw.fields.map WidgetFields.content = w.fields.map WidgetFields.content :=
  match w with
  | .mk own children => by
      rw [afterDraw]
      split
      · rfl
      · rw [fields_mk, fields_mk, List.map_cons, List.map_cons,
          content_afterDrawChildren children]
        congr 1
        split <;> rfl

theorem content_afterDrawChildren (children : List TcWidget) :
    (allFields (afterDrawChildren children)).map WidgetFields.content =
      (allFields children).map WidgetFields.content :=
  match children with
  | [] => rfl
  | child :: rest => by
      rw [afterDrawChildren, allFields_cons, allFields_cons, List.map_append, List.map_append,
        content_afterDraw child, content_afterDrawChildren rest]

end

mutual

theorem fields_update (w : TcWidget) (address : ℕ) (f : WidgetFields → WidgetFields) :
    (w.update address f).fields =
      w.fields.map fun own ↦ if own.address = address then f own else own :=
  match w with
  | .mk own children => by
      rw [update, fields_mk, fields_mk, List.map_cons, fields_updateChildren children]

theorem fields_updateChildren (children : List TcWidget) (address : ℕ)
    (f : WidgetFields → WidgetFields) :
    allFields (updateChildren address f children) =
      (allFields children).map fun own ↦ if own.address = address then f own else own :=
  match children with
  | [] => rfl
  | child :: rest => by
      rw [updateChildren, allFields_cons, allFields_cons, List.map_append, fields_update child,
        fields_updateChildren rest]

end

/-- The buffer at an address. -/
def bufferAt (w : TcWidget) (address : ℕ) : Option TcGap := (w.find address).bind (·.buffer)

theorem bufferAt_eq_of_content {w v : TcWidget}
    (h : v.fields.map WidgetFields.content = w.fields.map WidgetFields.content) (address : ℕ) :
    v.bufferAt address = w.bufferAt address := by
  have hlookup (t : TcWidget) : t.bufferAt address =
      ((t.fields.map WidgetFields.content).find? (·.1 = address)).bind (·.2) := by
    rw [List.find?_map, Option.bind_map]
    rfl
  rw [hlookup, hlookup, h]

theorem find_update (w : TcWidget) (address : ℕ) {f : WidgetFields → WidgetFields}
    (hf : ∀ own, (f own).address = own.address) (b : ℕ) :
    (w.update address f).find b = if address = b then (w.find b).map f else w.find b := by
  have hsame : ((fun own : WidgetFields ↦ decide (own.address = b)) ∘
      fun own ↦ if own.address = address then f own else own) = fun own ↦ decide (own.address = b) := by
    funext own
    simp only [Function.comp]
    split
    · rw [hf]
    · rfl
  rw [find, fields_update, List.find?_map, hsame, find]
  cases hfind : w.fields.find? (·.address = b) with
  | none => simp
  | some own =>
      have hown : own.address = b := by simpa using List.find?_some hfind
      simp only [Option.map_some, hown]
      by_cases hab : b = address
      · rw [if_pos hab, if_pos hab.symm]
      · rw [if_neg hab, if_neg fun h ↦ hab h.symm]

end TcWidget

/-! ## Keys -/

section Keys

variable {g : TcGap} {saved : List UInt8}

theorem keepsSaved_ite {c : Prop} [Decidable c] {a b : TcGap × ℤ} (ha : KeepsSaved a.1 saved)
    (hb : KeepsSaved b.1 saved) : KeepsSaved (if c then a else b).1 saved := by
  split
  · exact ha
  · exact hb

/-- Page up and page down move line by line. -/
theorem keepsSaved_page (h : KeepsSaved g saved) (direction : ℤ) (n : ℕ) :
    KeepsSaved ((TcGap.vertical · direction)^[n] g) saved := by
  induction n with
  | zero => exact h
  | succ n ih =>
      rw [Function.iterate_succ_apply']
      exact ih.vertical direction

/-- A key keeps what is known of the focused buffer. -/
theorem editKey_keepsSaved (h : KeepsSaved g saved) (height key : ℤ) (cp : ℕ) :
    KeepsSaved (editKey g height key cp).1 saved := by
  have hleft : KeepsSaved g.left saved := h.seekImpl _
  have hright : KeepsSaved g.right saved := h.seekImpl _
  have hhome : KeepsSaved g.home saved := h.seekImpl _
  have hend : KeepsSaved g.toEnd saved := h.seekImpl _
  have hnewline : KeepsSaved (if 1 < height then g.insert [10] else (g, 0)).1 saved :=
    keepsSaved_ite (h.insert [10]) h
  have htyped : KeepsSaved (if 32 ≤ cp ∧ cp ≠ 127 then g.insert (utf8Encode cp) else (g, 0)).1
      saved := keepsSaved_ite (h.insert _) h
  rw [editKey]
  refine keepsSaved_ite hleft (keepsSaved_ite hright ?_)
  refine keepsSaved_ite (h.vertical (-1)) (keepsSaved_ite (h.vertical 1) ?_)
  refine keepsSaved_ite hhome (keepsSaved_ite hend ?_)
  refine keepsSaved_ite (keepsSaved_page h _ _) ?_
  refine keepsSaved_ite h.backspace (keepsSaved_ite h.delete ?_)
  exact keepsSaved_ite hnewline htyped

end Keys

namespace TinyEdit

/-- The text box holds a buffer that is clean only with the text on disk, and the prompt
has a buffer. -/
structure Safe (s : TinyEdit) : Prop where
  text : ∃ g, s.buffer = some g ∧ KeepsSaved g s.disk
  prompt : (s.bufferAt promptAt).isSome

variable {s s' : TinyEdit}

theorem Safe.of_same (h : s.Safe) (hdisk : s'.disk = s.disk)
    (hbuffer : ∀ address, s'.bufferAt address = s.bufferAt address) : s'.Safe where
  text := by
    rw [buffer, hbuffer, hdisk]
    exact h.text
  prompt := by
    rw [hbuffer]
    exact h.prompt

theorem bufferAt_eq (s : TinyEdit) (address : ℕ) :
    s.bufferAt address = s.ui.root.bind (·.bufferAt address) := rfl

/-- A change of the buffer at an address. -/
theorem bufferAt_updateWidget (s : TinyEdit) (address : ℕ) {f : WidgetFields → WidgetFields}
    (hf : ∀ own, (f own).address = own.address) (b : ℕ) :
    ({ s with ui := s.ui.updateWidget address f } : TinyEdit).bufferAt b =
      if address = b then s.ui.root.bind fun root ↦ (root.find b).bind fun own ↦ (f own).buffer
      else s.bufferAt b := by
  rw [bufferAt, TcUi.updateWidget]
  cases hroot : s.ui.root with
  | none => simp [bufferAt, hroot]
  | some root =>
      simp only [Option.map_some, Option.bind_some, root.find_update address hf b, bufferAt, hroot]
      split
      · rw [Option.bind_map]
        rfl
      · rfl

/-- A widget with a buffer keeps one. -/
theorem bufferAt_withBuffer {b : ℕ} (h : (s.bufferAt b).isSome) (g : TcGap) :
    (s.ui.root.bind fun root ↦ (root.find b).bind fun own ↦ (own.withBuffer g).buffer) =
      some g := by
  rw [bufferAt] at h
  cases hroot : s.ui.root with
  | none => simp [hroot] at h
  | some root =>
      cases hfind : root.find b with
      | none => simp [hroot, hfind] at h
      | some own => simp [hfind, WidgetFields.withBuffer]

/-- A new buffer for one widget, which is known to be safe if it is the text box. -/
theorem Safe.updateWidget (h : s.Safe) (address : ℕ) {g : TcGap}
    (hkeeps : address = textAt → KeepsSaved g s.disk) :
    ({ s with ui := s.ui.updateWidget address (.withBuffer g) } : TinyEdit).Safe where
  text := by
    have htext := h.text
    rw [buffer, bufferAt_updateWidget s address (WidgetFields.address_withBuffer g)]
    split
    · rename_i haddress
      obtain ⟨g', hg', -⟩ := htext
      have hsome : (s.bufferAt textAt).isSome := Option.isSome_of_eq_some hg'
      exact ⟨g, bufferAt_withBuffer hsome g, hkeeps haddress⟩
    · exact htext
  prompt := by
    rw [bufferAt_updateWidget s address (WidgetFields.address_withBuffer g)]
    split
    · rw [bufferAt_withBuffer h.prompt]
      rfl
    · exact h.prompt

theorem Safe.setBuffer (h : s.Safe) {g : TcGap} (hkeeps : KeepsSaved g s.disk) :
    (s.setBuffer g).Safe :=
  h.updateWidget textAt fun _ ↦ hkeeps

theorem setText_bufferAt (s : TinyEdit) {address b : ℕ} (hne : address ≠ b) (text : List UInt8) :
    (s.setText address text).bufferAt b = s.bufferAt b := by
  rw [setText, bufferAt_updateWidget s address (WidgetFields.address_withText _), if_neg hne]

theorem Safe.status (h : s.Safe) (text : String) : (s.status text).Safe where
  text := by
    rw [buffer, TinyEdit.status, setText_bufferAt s (by decide)]
    exact h.text
  prompt := by
    rw [TinyEdit.status, setText_bufferAt s (by decide)]
    exact h.prompt

theorem Safe.focus (h : s.Safe) (address : ℕ) : (s.focus address).Safe :=
  h.of_same rfl fun _ ↦ rfl

/-- The prompt gets a new buffer. -/
theorem Safe.clearPrompt (h : s.Safe) : (s.setText promptAt []).Safe where
  text := by
    rw [buffer, setText_bufferAt s (by decide)]
    exact h.text
  prompt := by
    have hprompt := h.prompt
    rw [setText, bufferAt_updateWidget s promptAt (WidgetFields.address_withText _), if_pos rfl]
    rw [bufferAt] at hprompt
    cases hroot : s.ui.root with
    | none => simp [hroot] at hprompt
    | some root =>
        cases hfind : root.find promptAt with
        | none => simp [hroot, hfind] at hprompt
        | some own =>
            cases hown : own.buffer with
            | none => simp [hroot, hfind, hown] at hprompt
            | some g => simp [hfind, hown, WidgetFields.withText, TcGap.create]

theorem bufferAt_draw (s : TinyEdit) (address : ℕ) :
    ({ s with ui := s.ui.draw } : TinyEdit).bufferAt address = s.bufferAt address := by
  rw [bufferAt_eq, bufferAt_eq, TcUi.draw]
  cases hroot : s.ui.root with
  | none => simp [TcUi.clear, hroot]
  | some root =>
      have hlayout := root.content_layout ⟨0, 0, s.ui.width, s.ui.height⟩
      have hdraw := (root.layout ⟨0, 0, s.ui.width, s.ui.height⟩).content_afterDraw
      simp only [TcUi.clear, hroot, Option.bind_some]
      exact TcWidget.bufferAt_eq_of_content (hdraw.trans hlayout) address

theorem Safe.draw (h : s.Safe) : ({ s with ui := s.ui.draw } : TinyEdit).Safe :=
  h.of_same rfl (bufferAt_draw s)

theorem Safe.dispatchKey (h : s.Safe) {w : WidgetFields} (hw : s.ui.focused = some w) (key : ℤ)
    (cp : ℕ) : ({ s with ui := (s.ui.dispatchKey w key cp).1 } : TinyEdit).Safe := by
  rw [TcUi.dispatchKey]
  split
  · exact h
  · split
    · rename_i g _ hbuffer
      refine h.updateWidget w.address fun haddress ↦ ?_
      obtain ⟨g', hg', hkeeps⟩ := h.text
      have hsame : g' = g := by
        rw [TcUi.focused] at hw
        obtain ⟨root, hroot, hw⟩ := Option.bind_eq_some_iff.mp hw
        obtain ⟨focus, -, hfind⟩ := Option.bind_eq_some_iff.mp hw
        have hfocus : w.address = focus := by simpa using List.find?_some hfind
        rw [buffer, bufferAt, hroot, Option.bind_some, ← haddress, hfocus, hfind,
          Option.bind_some, hbuffer] at hg'
        exact (Option.some.inj hg').symm
      exact editKey_keepsSaved (hsame ▸ hkeeps) _ _ _
    · exact h

/-- An event that goes to the window keeps the buffers safe. -/
theorem Safe.dispatch (h : s.Safe) (e : UiEvent) :
    ({ s with ui := (s.ui.dispatch e).1 } : TinyEdit).Safe := by
  have hroot {ui : TcUi} (hui : ui.root = s.ui.root) : ({ s with ui := ui } : TinyEdit).Safe :=
    h.of_same rfl fun address ↦ by rw [bufferAt_eq, bufferAt_eq, hui]
  rw [TcUi.dispatch]
  split
  · apply hroot
    rw [TcUi.resize]
    split <;> rfl
  · split
    · exact h
    · split
      · apply hroot
        rw [TcUi.dispatchMouse]
        split <;> rfl
      · split
        · exact h
        · split
          · apply hroot
            rw [TcUi.dispatchTab]
            split <;> rfl
          · split
            · exact h
            · exact h.dispatchKey ‹_› _ _

theorem Safe.toWindow (h : s.Safe) (e : UiEvent) : (s.toWindow e).Safe := by
  rw [TinyEdit.toWindow]
  split
  · exact (h.dispatch e).status _
  · exact h.dispatch e

/-! ## Turns -/

section Turns

variable {g : TcGap} (h : s.Safe) (hg : s.buffer = some g) (hkeeps : KeepsSaved g s.disk)

include h hg hkeeps

/-- A save that succeeds puts the text of the buffer on disk. -/
theorem Safe.save (saveError : ℤ) : (s.save g saveError).Safe := by
  rw [TinyEdit.save]
  split
  · have hsaved : ({ s with disk := g.text } : TinyEdit).Safe :=
      ⟨⟨g, hg, hkeeps.holds, fun _ ↦ rfl⟩, h.prompt⟩
    exact (hsaved.setBuffer hkeeps.of_clean).status _
  · exact h.status _

omit hg in
theorem Safe.enter (query : List UInt8) : (s.enter g query).Safe := by
  have hmove (p : ℕ) : (s.setBuffer (g.seek p)).Safe := h.setBuffer (hkeeps.seekImpl _)
  have hline (line : ℤ) : (s.setBuffer (g.gotoLine line)).Safe :=
    h.setBuffer (hkeeps.seekImpl _)
  rw [TinyEdit.enter]
  split
  · dsimp only
    split
    · exact (hmove _).status _
    · exact h.status _
  · split
    · split
      · exact (hline _).status _
      · exact h.status _
    · exact h.status _

/-- Every branch for a key keeps the buffers safe. -/
theorem Safe.key {prompt : TcGap} {input : EditorInput}
    (hkey : s.key g prompt input = some s') : s'.Safe := by
  have hprompt : (({ s with promptMode := input.event.key } : TinyEdit).setText promptAt []).Safe :=
    Safe.clearPrompt (s := { s with promptMode := input.event.key }) (h.of_same rfl fun _ ↦ rfl)
  rw [TinyEdit.key] at hkey
  dsimp only at hkey
  split at hkey
  · exact Option.some.inj hkey ▸ h.save hg hkeeps _
  split at hkey
  · rw [← Option.some.inj hkey]
    split
    · exact (hprompt.focus promptAt).status _
    · exact (hprompt.focus promptAt).status _
  split at hkey
  · rw [← Option.some.inj hkey]
    exact h.of_same rfl fun _ ↦ rfl
  split at hkey
  · rw [← Option.some.inj hkey]
    exact (h.enter hkeeps prompt.text).of_same rfl fun _ ↦ rfl
  split at hkey
  · rw [← Option.some.inj hkey]
    have hcut := h.setBuffer hkeeps.cutLine
    exact Safe.status (s := { s.setBuffer g.cutLine.1 with clipboard := g.cutLine.2 })
      (hcut.of_same rfl fun _ ↦ rfl) _
  split at hkey
  · rw [← Option.some.inj hkey]
    have hpaste := h.setBuffer (hkeeps.insert s.clipboard)
    split
    · exact hpaste.status _
    · exact hpaste
  · cases hkey

end Turns

theorem Safe.turn (h : s.Safe) (input : EditorInput) : (s.turn input).1.Safe := by
  have hdraw := h.draw
  rw [TinyEdit.turn]
  dsimp only
  split
  · rename_i g prompt hg hprompt
    obtain ⟨g', hg', hkeeps⟩ := hdraw.text
    rw [hg, Option.some_inj] at hg'
    subst hg'
    split
    · split
      · split
        · exact hdraw
        · exact Safe.status (s := { s with ui := s.ui.draw, confirmQuit := true })
            (hdraw.of_same rfl fun _ ↦ rfl) _
      · have hconfirm : ({ s with ui := s.ui.draw, confirmQuit := false } : TinyEdit).Safe :=
          hdraw.of_same rfl fun _ ↦ rfl
        cases hkey : TinyEdit.key { s with ui := s.ui.draw, confirmQuit := false } g prompt
            input with
        | none => exact hconfirm.toWindow input.event
        | some s' => exact hconfirm.key hg hkeeps hkey
    · exact hdraw.toWindow input.event
  · exact hdraw

/-! ## The confirmation flag -/

theorem confirmQuit_toWindow (s : TinyEdit) (e : UiEvent) :
    (s.toWindow e).confirmQuit = s.confirmQuit := by
  rw [TinyEdit.toWindow]
  split <;> rfl

theorem confirmQuit_save (s : TinyEdit) (g : TcGap) (saveError : ℤ) :
    (s.save g saveError).confirmQuit = s.confirmQuit := by
  rw [TinyEdit.save]
  split <;> rfl

theorem confirmQuit_enter (s : TinyEdit) (g : TcGap) (query : List UInt8) :
    (s.enter g query).confirmQuit = s.confirmQuit := by
  rw [TinyEdit.enter]
  dsimp only
  split
  · split <;> rfl
  · split
    · split <;> rfl
    · rfl

theorem confirmQuit_key {g prompt : TcGap} {input : EditorInput}
    (hkey : s.key g prompt input = some s') : s'.confirmQuit = s.confirmQuit := by
  rw [TinyEdit.key] at hkey
  dsimp only at hkey
  split at hkey
  · rw [← Option.some.inj hkey, confirmQuit_save]
  split at hkey
  · rw [← Option.some.inj hkey]
    split <;> rfl
  split at hkey
  · rw [← Option.some.inj hkey]
    rfl
  split at hkey
  · rw [← Option.some.inj hkey]
    exact confirmQuit_enter s g prompt.text
  split at hkey
  · rw [← Option.some.inj hkey]
    rfl
  split at hkey
  · rw [← Option.some.inj hkey]
    split <;> rfl
  · cases hkey

/-- The flag is set only by a Ctrl-Q, and other keys clear it. -/
theorem confirmQuit_turn (hsafe : s.Safe) {input : EditorInput}
    (h : (s.turn input).1.confirmQuit = true) :
    (input.event.kind = 1 ∧ input.event.key = 17) ∨
      (input.event.kind ≠ 1 ∧ s.confirmQuit = true) := by
  obtain ⟨g, hg, -⟩ := hsafe.draw.text
  obtain ⟨prompt, hprompt⟩ := Option.isSome_iff_exists.mp hsafe.draw.prompt
  simp only [TinyEdit.turn, hg, hprompt] at h
  by_cases hkind : input.event.kind = 1
  · rw [if_pos hkind] at h
    by_cases hquit : input.event.key = 17
    · exact .inl ⟨hkind, hquit⟩
    · rw [if_neg hquit] at h
      cases hkey : TinyEdit.key { s with ui := s.ui.draw, confirmQuit := false } g prompt
          input with
      | none =>
          rw [hkey, Option.getD_none, confirmQuit_toWindow] at h
          cases h
      | some s' =>
          rw [hkey, Option.getD_some, confirmQuit_key hkey] at h
          cases h
  · rw [if_neg hkind, confirmQuit_toWindow] at h
    exact .inr ⟨hkind, h⟩

/-- Ctrl-Q leaves the loop if the buffer is clean or the flag is set. -/
theorem turn_leaves {input : EditorInput} (h : (s.turn input).2 = true) :
    input.event.kind = 1 ∧ input.event.key = 17 ∧
      ∃ g, ({ s with ui := s.ui.draw } : TinyEdit).buffer = some g ∧
        (g.dirty = false ∨ s.confirmQuit = true) := by
  rw [TinyEdit.turn] at h
  dsimp only at h
  split at h
  · rename_i g prompt hg hprompt
    split at h
    · rename_i hkind
      split at h
      · rename_i hkey
        split at h
        · rename_i hquit
          exact ⟨hkind, hkey, g, hg, hquit⟩
        · cases h
      · cases h
    · cases h
  · cases h

/-! ## Runs -/

/-- The key of the last key event. -/
def lastKey (inputs : List EditorInput) : Option ℤ :=
  (inputs.filter (·.event.kind = 1)).getLast?.map (·.event.key)

theorem lastKey_append_key (before : List EditorInput) {input : EditorInput}
    (h : input.event.kind = 1) : lastKey (before ++ [input]) = some input.event.key := by
  simp [lastKey, List.filter_append, h]

theorem lastKey_append_other (before : List EditorInput) {input : EditorInput}
    (h : input.event.kind ≠ 1) : lastKey (before ++ [input]) = lastKey before := by
  simp [lastKey, List.filter_append, h]

/-- The invariant of the loop behind some events. -/
structure Reached (s : TinyEdit) (before : List EditorInput) : Prop where
  safe : s.Safe
  confirm : s.confirmQuit = true → lastKey before = some 17

theorem Reached.turn {before : List EditorInput} (h : s.Reached before) (input : EditorInput) :
    (s.turn input).1.Reached (before ++ [input]) where
  safe := h.safe.turn input
  confirm hconfirm := by
    rcases confirmQuit_turn h.safe hconfirm with ⟨hkind, hkey⟩ | ⟨hkind, hold⟩
    · rw [lastKey_append_key before hkind, hkey]
    · rw [lastKey_append_other before hkind]
      exact h.confirm hold

theorem Reached.run {before : List EditorInput} (h : s.Reached before)
    {inputs : List EditorInput} (hrun : s.run inputs = (s', false)) :
    s'.Reached (before ++ inputs) := by
  induction inputs generalizing s before with
  | nil =>
      rw [TinyEdit.run, Prod.mk.injEq] at hrun
      rw [List.append_nil]
      exact hrun.1 ▸ h
  | cons input rest ih =>
      rw [TinyEdit.run] at hrun
      split at hrun
      · rename_i hleft
        rw [hrun] at hleft
        cases hleft
      · rw [List.append_cons]
        exact ih (h.turn input) hrun

theorem start_bufferAt (width height : ℕ) (path initial : List UInt8) :
    (start width height path initial).buffer = TcGap.create initial ∧
      (start width height path initial).bufferAt promptAt = TcGap.create [] :=
  ⟨rfl, rfl⟩

theorem start_reached (width height : ℕ) (path : List UInt8) {initial : List UInt8}
    (h : initial.length ≤ gapLimit) : (start width height path initial).Reached [] := by
  obtain ⟨hbuffer, hprompt⟩ := start_bufferAt width height path initial
  obtain ⟨g, hcreate, -, hkeeps⟩ := KeepsSaved.create h
  refine ⟨⟨⟨g, hbuffer.trans hcreate, hkeeps⟩, ?_⟩, fun hconfirm ↦ ?_⟩
  · rw [hprompt]
    rfl
  · cases hconfirm

end TinyEdit

end TinyCPlus.Tui
