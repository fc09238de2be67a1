import TraceTables.Proofs.Timeline.Brackets
import TraceTables.Proofs.Timeline.Meeting

/-! What each event does to the slices, their names and the stacks. The stack of a track has its open slices. -/

namespace TraceTables.Timeline

theorem alike_apply (t : Timeline) (e : Event) : Alike (t.prepare e) (t.apply e) := by
  rw [apply_eq_meetAll]
  exact alike_meetAll _ _

theorem Alike.stack {t t' : Timeline} (h : Alike t t') (track : Track) : t'.stack track = t.stack track := by
  unfold Timeline.stack
  rw [h.openSlices]

section Apply

variable (t : Timeline)

theorem slices_apply_begin (track : Track) (ts : Int) (name : String) :
    (t.apply (.sliceBegin track ts name)).slices =
      t.slices.push ⟨track, (t.intern name).1, ts, none, (t.stack track).length, (t.stack track).head?⟩ :=
  (alike_apply t _).slices

theorem strings_apply_begin (track : Track) (ts : Int) (name : String) :
    (t.apply (.sliceBegin track ts name)).strings = (t.intern name).2.strings :=
  (alike_apply t _).strings

theorem stack_apply_begin (track : Track) (ts : Int) (name : String) (other : Track) :
    (t.apply (.sliceBegin track ts name)).stack other =
      if track = other then t.slices.nextId :: t.stack other else t.stack other := by
  rw [(alike_apply t _).stack]
  by_cases h : track = other
  · subst h
    simp [prepare, beginSlice, stack, intern]
  · simp [prepare, beginSlice, stack, intern, h]

theorem apply_end_of_nil {track : Track} (h : t.stack track = []) (ts : Int) :
    t.apply (.sliceEnd track ts) = t.count .misplacedEndEvent := by
  simp only [apply, endSlice, h]

theorem apply_end_of_cons {track : Track} {id : SliceId} {around : List SliceId} (h : t.stack track = id :: around)
    (ts : Int) :
    t.apply (.sliceEnd track ts) =
      { t with
        slices := (t.slices.close id ts).2
        openSlices := t.openSlices.insert track around
        counters := if (t.slices.close id ts).1.isNone then t.counters.increment .invalidSliceDuration
          else t.counters } := by
  simp only [apply, endSlice, h]
  split <;> rfl

/-- Ends of slices leave names and flows alone. -/
theorem flows_apply_end (track : Track) (ts : Int) :
    let t' := t.apply (.sliceEnd track ts)
    t'.strings = t.strings ∧ t'.edges = t.edges ∧ t'.endpoints = t.endpoints ∧ t'.parked = t.parked ∧
      t'.legacy = t.legacy := by
  intro t'
  simp only [t']
  cases hs : t.stack track with
  | nil =>
    rw [apply_end_of_nil t hs]
    exact ⟨rfl, rfl, rfl, rfl, rfl⟩
  | cons id around =>
    rw [apply_end_of_cons t hs]
    exact ⟨rfl, rfl, rfl, rfl, rfl⟩

theorem strings_apply_end (track : Track) (ts : Int) : (t.apply (.sliceEnd track ts)).strings = t.strings :=
  (flows_apply_end t track ts).1

theorem stack_apply_end (track : Track) (ts : Int) (other : Track) :
    (t.apply (.sliceEnd track ts)).stack other =
      if track = other then (t.stack other).tail else t.stack other := by
  by_cases h : track = other
  · subst h
    rw [if_pos rfl]
    cases hs : t.stack track with
    | nil =>
      rw [apply_end_of_nil t hs]
      exact hs
    | cons id around =>
      rw [apply_end_of_cons t hs]
      simp [stack]
  · rw [if_neg h]
    cases hs : t.stack track with
    | nil =>
      rw [apply_end_of_nil t hs]
      rfl
    | cons id around =>
      rw [apply_end_of_cons t hs]
      simp [stack, h]

variable {t} {e : Event} {f : FlowEvent} (h : e.flow? = some f)
include h

theorem slices_apply_of_flow : (t.apply e).slices = t.slices := by
  rw [(alike_apply t e).slices, prepare_of_flow h]
  split <;> simp [parkEnd]

theorem stack_apply_of_flow (track : Track) : (t.apply e).stack track = t.stack track := by
  rw [(alike_apply t e).stack, prepare_of_flow h]
  split <;> simp [parkEnd, stack]

end Apply

section Close

/-- The slice with the duration of an end, if it is valid. -/
def Slice.ended (s : Slice) (ts : Int) : Slice := { s with dur? := (s.duration? ts).or s.dur? }

variable (t : SliceTable) (id : SliceId) (ts : Int)

theorem SliceTable.get?_close (other : SliceId) :
    (t.close id ts).2.get? other = if id = other then (t.get? other).map (·.ended ts) else t.get? other := by
  unfold close
  cases hs : t.get? id with
  | none =>
    by_cases h : id = other
    · subst h
      simp [hs]
    · simp [h]
  | some s =>
    cases hd : s.duration? ts with
    | none =>
      by_cases h : id = other
      · subst h
        simp [hs, hd, Slice.ended]
      · simp [h, hd]
    | some d =>
      by_cases h : id = other
      · subst h
        have hlt : id < t.rows.length := (List.getElem?_eq_some_iff.1 hs).1
        rw [if_pos rfl, hs]
        simp [hd, get?, Slice.ended, List.getElem?_set_self hlt]
      · simp [h, hd, get?, List.getElem?_set_ne h]

variable {t}

/-- A slice stays, but for its duration. -/
theorem SliceTable.exists_get?_close {other : SliceId} {s : Slice} (h : t.get? other = some s) :
    ∃ s', (t.close id ts).2.get? other = some s' ∧ (s' = s ∨ s' = s.ended ts) := by
  rw [get?_close, h]
  split
  · exact ⟨s.ended ts, rfl, Or.inr rfl⟩
  · exact ⟨s, rfl, Or.inl rfl⟩

variable {id ts}

theorem SliceTable.exists_of_get?_close {other : SliceId} {s' : Slice} (h : (t.close id ts).2.get? other = some s') :
    ∃ s, t.get? other = some s ∧ (s' = s ∨ s' = s.ended ts) := by
  rw [get?_close] at h
  split at h
  · obtain ⟨s, hs, rfl⟩ := Option.map_eq_some_iff.1 h
    exact ⟨s, hs, Or.inr rfl⟩
  · exact ⟨s', h, Or.inl rfl⟩

variable (t id ts)

theorem SliceTable.fst_close : (t.close id ts).1 = (t.get? id).bind (·.duration? ts) := by
  unfold close
  cases t.get? id with
  | none => rfl
  | some s => cases hs : s.duration? ts <;> simp [hs]

end Close

theorem SliceTable.lt_of_get? {t : SliceTable} {id : SliceId} {s : Slice} (h : t.get? id = some s) :
    id < t.nextId :=
  (List.getElem?_eq_some_iff.1 h).1

theorem SliceTable.get?_push_of_get? {t : SliceTable} {id : SliceId} {s : Slice} (h : t.get? id = some s)
    (new : Slice) : (t.push new).get? id = some s := by
  rw [get?_push, if_neg (Nat.ne_of_lt (lt_of_get? h)), h]

theorem fst_intern_lt (t : Timeline) (name : String) : (t.intern name).1 < (t.intern name).2.strings.items.length := by
  have h : (t.intern name).2.strings.get? (t.intern name).1 = some name := Numbering.get?_number t.strings name
  exact (List.getElem?_eq_some_iff.1 h).1

theorem strings_prefix_identify (t : Timeline) (n : FlowName) :
    t.strings.items <+: (t.identify n).2.strings.items := by
  cases n with
  | explicit id => exact List.prefix_refl _
  | legacy sourceId category name =>
    exact (Numbering.items_prefix_number t.strings category).trans (Numbering.items_prefix_number _ name)

theorem strings_prefix_apply (t : Timeline) (e : Event) : t.strings.items <+: (t.apply e).strings.items := by
  rcases e.cases_flow with ⟨track, ts, name, rfl⟩ | ⟨track, ts, rfl⟩ | ⟨f, hf⟩
  · rw [strings_apply_begin]
    exact Numbering.items_prefix_number t.strings name
  · rw [strings_apply_end]
  · rw [(alike_apply t e).strings, prepare_of_flow hf]
    split <;> exact strings_prefix_identify t f.name

theorem size_slices_replay (events : List Event) : (replay events).slices.size = begun events := by
  induction events using List.reverseRecOn with
  | nil => rfl
  | append_singleton events e ih =>
    rw [replay_concat, begun_concat, ← ih]
    rcases e.cases_flow with ⟨track, ts, name, rfl⟩ | ⟨track, ts, rfl⟩ | ⟨f, hf⟩
    · simp [slices_apply_begin, SliceTable.push, SliceTable.size, Event.begins]
    · cases hs : (replay events).stack track with
      | nil =>
        rw [apply_end_of_nil _ hs]
        rfl
      | cons id around =>
        rw [apply_end_of_cons _ hs]
        simp [Event.begins]
    · simp [slices_apply_of_flow hf, Event.begins_of_flow hf]

/-- The stack of a track has its open slices. -/
theorem stack_replay (events : List Event) (track : Track) : (replay events).stack track = openOn track events := by
  induction events using List.reverseRecOn with
  | nil => rfl
  | append_singleton events e ih =>
    rw [replay_concat]
    rcases e.cases_flow with ⟨t, ts, name, rfl⟩ | ⟨t, ts, rfl⟩ | ⟨f, hf⟩
    · rw [stack_apply_begin, openOn_begin, ih, ← size_slices_replay]
      rfl
    · rw [stack_apply_end, openOn_end, ih]
    · rw [stack_apply_of_flow hf, openOn_of_flow hf, ih]

theorem top?_replay (events : List Event) (track : Track) (id : SliceId) :
    (replay events).top? track = some id ↔ Open track 0 id events := by
  rw [top?, stack_replay, List.head?_eq_getElem?, getElem?_openOn]

/-- The counters of slices change at ends only. -/
theorem get_counters_apply {c : Counter} (hc : c.ofFlows = false) (t : Timeline) {e : Event} (he : e.ends = false) :
    (t.apply e).counters.get c = t.counters.get c := by
  rw [apply_eq_meetAll, get_counters_meetAll hc]
  rcases e.cases_flow with ⟨track, ts, name, rfl⟩ | ⟨track, ts, rfl⟩ | ⟨f, hf⟩
  · rfl
  · cases he
  · rw [prepare_of_flow hf]
    split <;> simp [parkEnd]

/-- Ends of slices do not touch the counters of flows. -/
theorem get_counters_apply_end {c : Counter} (hc : c.ofFlows = true) (t : Timeline) (track : Track) (ts : Int) :
    (t.apply (.sliceEnd track ts)).counters.get c = t.counters.get c := by
  have hincrement : ∀ c', c'.ofFlows = false → (t.counters.increment c').get c = t.counters.get c := by
    intro c' hc'
    have hne : c' ≠ c := by
      rintro rfl
      rw [hc] at hc'
      cases hc'
    simp [hne]
  cases hs : t.stack track with
  | nil =>
    rw [apply_end_of_nil t hs]
    exact hincrement _ rfl
  | cons id around =>
    rw [apply_end_of_cons t hs]
    dsimp only
    split
    · exact hincrement _ rfl
    · rfl

end TraceTables.Timeline
