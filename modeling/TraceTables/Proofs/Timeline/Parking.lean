import Mathlib.Data.List.DropRight
import TraceTables.Proofs.Timeline.Balance

/-! Ends that wait for a slice. On each track those wait that have come since the last slice opened there, and the next
one that opens settles them in their order. Nothing else looks at what waits on the track. -/

namespace TraceTables.Timeline

/-- The events behind the last slice that opened on a track. -/
def sinceOpening (track : Track) (events : List Event) : List Event := events.rtakeWhile fun e => !e.opens track

/-- The flow whose end the event is, if it is one on the track that does not bind to an open slice. -/
def Event.waiter? (track : Track) : Event → Option FlowName
  | flowEnd t flow false => if t = track then some (.explicit flow) else none
  | legacyFlow t .finish sourceId category name false =>
    if t = track then some (.legacy sourceId category name) else none
  | _ => none

theorem Event.waiter?_of_flow {e : Event} {f : FlowEvent} (h : e.flow? = some f) (track : Track) :
    e.waiter? track = if f.parks = true ∧ e.track = track then some f.name else none := by
  cases e with
  | sliceBegin | sliceEnd => cases h
  | flowBegin | flowStep =>
    cases h
    simp [waiter?, FlowEvent.parks]
  | flowEnd t flow bind =>
    cases h
    cases bind <;> simp [waiter?, FlowEvent.parks, Event.track]
  | legacyFlow t phase sourceId category name bind =>
    cases h
    cases phase <;> cases bind <;> simp [waiter?, FlowEvent.parks, Event.track]

theorem Event.waiter?_of_none {e : Event} (h : e.flow? = none) (track : Track) : e.waiter? track = none := by
  cases e with
  | sliceBegin | sliceEnd => rfl
  | flowBegin | flowStep | flowEnd | legacyFlow => cases h

theorem park_eq (track : Track) (waiting : List FlowName) (e : Event) :
    park track waiting e = if e.opens track then [] else waiting ++ (e.waiter? track).toList := by
  cases he : e.flow? with
  | none => simp [park, he, Event.waiter?_of_none he]
  | some f =>
    rw [park_of_flow he, Event.waiter?_of_flow he, Event.opens_of_flow he]
    by_cases hp : f.parks = true ∧ e.track = track <;> simp [hp]

theorem sinceOpening_concat (track : Track) (events : List Event) (e : Event) :
    sinceOpening track (events ++ [e]) = if e.opens track then [] else sinceOpening track events ++ [e] := by
  rw [sinceOpening, List.rtakeWhile_concat]
  cases e.opens track <;> rfl

theorem parkedOn_eq (track : Track) (events : List Event) :
    parkedOn track events = (sinceOpening track events).filterMap (Event.waiter? track) := by
  induction events using List.reverseRecOn with
  | nil => rfl
  | append_singleton events e ih =>
    rw [parkedOn_concat, park_eq, ih, sinceOpening_concat]
    cases e.opens track with
    | true => rfl
    | false => cases hw : e.waiter? track <;> simp [hw]

/-! ## What does not look at the ends that wait -/

/-- The states differ at most in the ends that wait on a track. -/
structure Apart (track : Track) (t t' : Timeline) : Prop where
  rest : ∃ parked, t' = { t with parked := parked }
  elsewhere : ∀ other, other ≠ track → t'.waiting other = t.waiting other

theorem Apart.refl (track : Track) (t : Timeline) : Apart track t t := ⟨⟨t.parked, rfl⟩, fun _ _ => rfl⟩

theorem meetAll_parked (t : Timeline) (parked : Assoc Track (List FlowId)) (ms : List (FlowId × Meeting)) :
    { t with parked := parked }.meetAll ms = { t.meetAll ms with parked := parked } := by
  induction ms generalizing t with
  | nil => rfl
  | cons m ms ih =>
    have hm : { t with parked := parked }.meet m.1 m.2 = { t.meet m.1 m.2 with parked := parked } := by
      rw [meet_eq, meet_eq]
      rfl
    exact (congrArg (meetAll · ms) hm).trans (ih (t.meet m.1 m.2))

theorem endSlice_parked (t : Timeline) (parked : Assoc Track (List FlowId)) (track : Track) (ts : Int) :
    ({ t with parked := parked }.endSlice track ts).2 = { (t.endSlice track ts).2 with parked := parked } := by
  have hs : { t with parked := parked }.stack track = t.stack track := rfl
  unfold endSlice
  rw [hs]
  cases t.stack track with
  | nil => rfl
  | cons id around =>
    simp only
    split <;> rfl

theorem identify_parked (t : Timeline) (parked : Assoc Track (List FlowId)) (n : FlowName) :
    { t with parked := parked }.identify n =
      ((t.identify n).1, { (t.identify n).2 with parked := parked }) := by
  cases n <;> rfl

section Step

variable {track : Track} {t t' : Timeline} {e : Event}

theorem Apart.identify (h : Apart track t t') (n : FlowName) : (t'.identify n).1 = (t.identify n).1 := by
  obtain ⟨parked, rfl⟩ := h.rest
  rw [identify_parked]

theorem Apart.prepare (h : Apart track t t') (e : Event) :
    ∃ parked, t'.prepare e = { t.prepare e with parked := parked } := by
  obtain ⟨parked, rfl⟩ := h.rest
  rcases e.cases_flow with ⟨other, ts, name, rfl⟩ | ⟨other, ts, rfl⟩ | ⟨f, hf⟩
  · exact ⟨_, rfl⟩
  · exact ⟨parked, endSlice_parked t parked other ts⟩
  · rw [prepare_of_flow hf, prepare_of_flow hf, identify_parked]
    split
    · exact ⟨_, rfl⟩
    · exact ⟨_, rfl⟩

/-- Unless a slice opens on the track, flows meet the same. -/
theorem Apart.meetings (h : Apart track t t') (he : e.opens track = false) : t'.meetings e = t.meetings e := by
  rcases e.cases_flow with ⟨other, ts, name, rfl⟩ | ⟨other, ts, rfl⟩ | ⟨f, hf⟩
  · have hne : other ≠ track := by simpa [Event.opens] using he
    have hw := h.elsewhere other hne
    obtain ⟨parked, rfl⟩ := h.rest
    simp only [Timeline.meetings, hw]
  · rfl
  · rw [meetings_of_flow hf, meetings_of_flow hf, h.identify]
    obtain ⟨parked, rfl⟩ := h.rest
    rfl

theorem Apart.apply (h : Apart track t t') (he : e.opens track = false) : Apart track (t.apply e) (t'.apply e) := by
  refine ⟨?_, fun other ho => ?_⟩
  · obtain ⟨parked, hp⟩ := h.prepare e
    rw [apply_eq_meetAll, apply_eq_meetAll, h.meetings he, hp, meetAll_parked]
    exact ⟨parked, rfl⟩
  · have hw := h.elsewhere other ho
    rcases e.cases_flow with ⟨track', ts, name, rfl⟩ | ⟨track', ts, rfl⟩ | ⟨f, hf⟩
    · rw [waiting_apply_begin, waiting_apply_begin, hw]
    · rw [waiting_apply_end, waiting_apply_end, hw]
    · rw [waiting_apply_of_flow _ hf, waiting_apply_of_flow _ hf, h.identify, hw]

end Step

/-- Unless a slice opens on the track, nothing is added to what waits there but the flow of an end that does not bind. -/
theorem waiting_apply {track : Track} {e : Event} (he : e.opens track = false) (t : Timeline) :
    (t.apply e).waiting track =
      t.waiting track ++ ((e.waiter? track).map fun n => (t.identify n).1).toList := by
  rcases e.cases_flow with ⟨other, ts, name, rfl⟩ | ⟨other, ts, rfl⟩ | ⟨f, hf⟩
  · have hne : other ≠ track := by simpa [Event.opens] using he
    rw [waiting_apply_begin, if_neg hne]
    simp [Event.waiter?]
  · rw [waiting_apply_end]
    simp [Event.waiter?]
  · rw [waiting_apply_of_flow _ hf, Event.waiter?_of_flow hf]
    split <;> simp

/-- At any time the ends wait on a track that have come there since a slice last opened on it, in order of arrival. The
next one that opens there settles them all, in this order, and none on another track. Any other event does the same
whatever waits there, and only an end that does not bind adds its flow. -/
theorem ends_wait_for_opening (events : List Event) (track : Track) :
    let t := replay events
    t.waiting track = ((sinceOpening track events).filterMap (Event.waiter? track)).map (number events) ∧
      (∀ ts name, let t' := t.apply (.sliceBegin track ts name)
        Settles t track t' ∧ ∃ s : Slice, s.track = track ∧ t'.slices = t.slices.push s) ∧
      ∀ e, e.opens track = false →
        let new := ((e.waiter? track).map (number events)).toList
        (t.apply e).waiting track = t.waiting track ++ new ∧
          ∀ u, Apart track t u →
            Apart track (t.apply e) (u.apply e) ∧ (u.apply e).waiting track = u.waiting track ++ new := by
  intro t
  refine ⟨?_, fun ts name => ⟨settles_apply t track ts name, _, rfl, slices_apply_begin t track ts name⟩, ?_⟩
  · rw [← parkedOn_eq]
    exact waiting_replay events track
  · intro e he new
    have hadded : ∀ u, Apart track t u → (u.apply e).waiting track = u.waiting track ++ new := by
      intro u hu
      have hnumber : (fun n => (u.identify n).1) = number events := by
        funext n
        rw [hu.identify, (named_replay events).fst_identify]
      rw [waiting_apply he, hnumber]
    exact ⟨hadded t (.refl track t), fun u hu => ⟨hu.apply he, hadded u hu⟩⟩

end TraceTables.Timeline
