import TraceTables.Proofs.Timeline.History

/-! Begins and ends of slices match like brackets, on each track for itself. Slices have the numbers of their begins,
over all tracks. -/

namespace TraceTables.Timeline

namespace Event

/-- Does a slice of the track begin? -/
def opens (track : Track) : Event → Bool
  | sliceBegin t _ _ => t = track
  | _ => false

/-- Does a slice of the track end, if one is open? -/
def closes (track : Track) : Event → Bool
  | sliceEnd t _ => t = track
  | _ => false

/-- Does a slice begin, on any track? -/
def begins : Event → Bool
  | sliceBegin .. => true
  | _ => false

/-- Is there an end, on any track? -/
def ends : Event → Bool
  | sliceEnd .. => true
  | _ => false

/-- Does the event begin or end a slice of the track? -/
def ofSlices (track : Track) (e : Event) : Bool := e.opens track || e.closes track

end Event

/-- The number of slices that have begun. -/
def begun (events : List Event) : Nat := events.countP Event.begins

def opened (track : Track) (events : List Event) : Nat := events.countP (Event.opens track)

def closed (track : Track) (events : List Event) : Nat := events.countP (Event.closes track)

section Flow

variable {e : Event} {f : FlowEvent} (h : e.flow? = some f)
include h

theorem Event.opens_of_flow (track : Track) : e.opens track = false := by
  cases e <;> cases h <;> rfl

theorem Event.closes_of_flow (track : Track) : e.closes track = false := by
  cases e <;> cases h <;> rfl

theorem Event.begins_of_flow : e.begins = false := by
  cases e <;> cases h <;> rfl

theorem Event.ends_of_flow : e.ends = false := by
  cases e <;> cases h <;> rfl

end Flow

/-- On the track the events close no slice that was open before them. -/
def Within (track : Track) (events : List Event) : Prop :=
  ∀ first, first <+: events → closed track first ≤ opened track first

/-- After the events a slice of the track is open, with so many others inside it. -/
def Open (track : Track) (inside : Nat) (id : SliceId) (events : List Event) : Prop :=
  ∃ before ts name after, events = before ++ .sliceBegin track ts name :: after ∧ id = begun before ∧
    Within track after ∧ opened track after = closed track after + inside

/-- The open slices of a track from the latest event back. -/
def openBack (track : Track) : List Event → List SliceId
  | [] => []
  | .sliceBegin t _ _ :: earlier =>
    if t = track then begun earlier :: openBack track earlier else openBack track earlier
  | .sliceEnd t _ :: earlier =>
    if t = track then (openBack track earlier).tail else openBack track earlier
  | _ :: earlier => openBack track earlier

/-- The open slices of a track after the events, the innermost first. -/
def openOn (track : Track) (events : List Event) : List SliceId := openBack track events.reverse

theorem within_nil (track : Track) : Within track [] := by
  intro first h
  rw [List.prefix_nil.1 h]
  exact Nat.le_refl _

theorem within_concat (track : Track) (events : List Event) (e : Event) :
    Within track (events ++ [e]) ↔
      Within track events ∧ closed track (events ++ [e]) ≤ opened track (events ++ [e]) := by
  unfold Within
  refine ⟨?_, ?_⟩
  · intro h
    exact ⟨fun first hf => h first (hf.trans (List.prefix_append _ _)), h _ (List.prefix_refl _)⟩
  · rintro ⟨h, he⟩ first hf
    rcases List.prefix_concat_iff.1 hf with rfl | hf
    · exact he
    · exact h first hf

theorem Within.le {track : Track} {events : List Event} (h : Within track events) :
    closed track events ≤ opened track events := h events (List.prefix_refl _)

theorem opened_concat (track : Track) (events : List Event) (e : Event) :
    opened track (events ++ [e]) = opened track events + if e.opens track then 1 else 0 := by
  simp [opened, List.countP_append, List.countP_singleton]

theorem closed_concat (track : Track) (events : List Event) (e : Event) :
    closed track (events ++ [e]) = closed track events + if e.closes track then 1 else 0 := by
  simp [closed, List.countP_append, List.countP_singleton]

theorem begun_concat (events : List Event) (e : Event) :
    begun (events ++ [e]) = begun events + if e.begins then 1 else 0 := by
  simp [begun, List.countP_append, List.countP_singleton]

/-- With one more event, a slice is open that begins with it; of the others, one more or one fewer may be inside. -/
theorem open_concat (track : Track) (k : Nat) (id : SliceId) (events : List Event) (e : Event) :
    Open track k id (events ++ [e]) ↔
      (e.opens track = true ∧ k = 0 ∧ id = begun events) ∨
        ∃ j, Open track j id events ∧
          j + (if e.opens track then 1 else 0) = k + if e.closes track then 1 else 0 := by
  unfold Open
  constructor
  · rintro ⟨before, ts, name, after, hsplit, hid, hin, hk⟩
    rcases concat_eq_split.1 hsplit with ⟨rfl, rfl, rfl⟩ | ⟨rest, rfl, rfl⟩
    · left
      refine ⟨by simp [Event.opens], ?_, hid⟩
      simpa [opened, closed] using hk.symm
    · right
      rw [within_concat] at hin
      rw [opened_concat, closed_concat] at hk
      have hle := hin.1.le
      exact ⟨opened track rest - closed track rest, ⟨before, ts, name, rest, rfl, hid, hin.1, by omega⟩, by omega⟩
  · rintro (⟨ho, rfl, rfl⟩ | ⟨j, ⟨before, ts, name, rest, rfl, hid, hin, hj⟩, hk⟩)
    · rcases e.cases_flow with ⟨t, ts, name, rfl⟩ | ⟨t, ts, rfl⟩ | ⟨f, hf⟩
      · obtain rfl : t = track := by simpa [Event.opens] using ho
        exact ⟨events, ts, name, [], rfl, rfl, within_nil t, rfl⟩
      · cases ho
      · rw [Event.opens_of_flow hf] at ho
        cases ho
    · refine ⟨before, ts, name, rest ++ [e], by simp, hid, ?_, ?_⟩
      · rw [within_concat, opened_concat, closed_concat]
        exact ⟨hin, by omega⟩
      · rw [opened_concat, closed_concat]
        omega

theorem openOn_begin (track t : Track) (ts : Int) (name : String) (events : List Event) :
    openOn track (events ++ [.sliceBegin t ts name]) =
      if t = track then begun events :: openOn track events else openOn track events := by
  simp [openOn, openBack, begun, List.countP_reverse]

theorem openOn_end (track t : Track) (ts : Int) (events : List Event) :
    openOn track (events ++ [.sliceEnd t ts]) =
      if t = track then (openOn track events).tail else openOn track events := by
  simp [openOn, openBack]

theorem openOn_of_flow {e : Event} {f : FlowEvent} (h : e.flow? = some f) (track : Track) (events : List Event) :
    openOn track (events ++ [e]) = openOn track events := by
  cases e <;> cases h <;> simp [openOn, openBack]

/-- Counted from the innermost one, the open slices are those whose begin has found no end, with so many others inside
them. -/
theorem getElem?_openOn (track : Track) (k : Nat) (id : SliceId) (events : List Event) :
    (openOn track events)[k]? = some id ↔ Open track k id events := by
  induction events using List.reverseRecOn generalizing k with
  | nil => simp [openOn, openBack, Open]
  | append_singleton events e ih =>
    rw [open_concat]
    simp only [← ih]
    rcases e.cases_flow with ⟨t, ts, name, rfl⟩ | ⟨t, ts, rfl⟩ | ⟨f, hf⟩
    · rw [openOn_begin]
      by_cases ht : t = track
      · cases k <;> simp [ht, Event.opens, Event.closes, eq_comm]
      · simp [ht, Event.opens, Event.closes]
    · rw [openOn_end]
      by_cases ht : t = track <;> simp [ht, Event.opens, Event.closes]
    · simp [openOn_of_flow hf, Event.opens_of_flow hf, Event.closes_of_flow hf]

theorem begun_le_of_isPrefix {before events : List Event} (h : before <+: events) : begun before ≤ begun events :=
  h.sublist.countP_le

theorem Open.lt {track : Track} {k : Nat} {id : SliceId} {events : List Event} (h : Open track k id events) :
    id < begun events := by
  obtain ⟨before, ts, name, after, rfl, rfl, -⟩ := h
  have hp : before ++ [.sliceBegin track ts name] <+: before ++ .sliceBegin track ts name :: after :=
    ⟨after, by simp⟩
  have hle := begun_le_of_isPrefix hp
  rw [begun_concat] at hle
  exact hle

/-- How many slices of a track are open, the other events have no part in. -/
theorem length_openOn_filter (track : Track) (events : List Event) :
    (openOn track (events.filter (Event.ofSlices track))).length = (openOn track events).length := by
  induction events using List.reverseRecOn with
  | nil => rfl
  | append_singleton events e ih =>
    rw [List.filter_append, List.filter_singleton]
    rcases e.cases_flow with ⟨t, ts, name, rfl⟩ | ⟨t, ts, rfl⟩ | ⟨f, hf⟩
    · by_cases ht : t = track
      · simp [openOn_begin, ih, ht, Event.ofSlices, Event.opens]
      · simp [openOn_begin, ih, ht, Event.ofSlices, Event.opens, Event.closes]
    · by_cases ht : t = track
      · simp [openOn_end, ih, ht, Event.ofSlices, Event.closes]
      · simp [openOn_end, ih, ht, Event.ofSlices, Event.opens, Event.closes]
    · simp [openOn_of_flow hf, ih, Event.ofSlices, Event.opens_of_flow hf, Event.closes_of_flow hf]

end TraceTables.Timeline
