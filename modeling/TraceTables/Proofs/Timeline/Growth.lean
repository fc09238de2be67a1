import TraceTables.Proofs.Timeline.Course
import TraceTables.Proofs.Timeline.Nesting

/-! The tables of a run only grow. Edges, strings and numbered flows come to their ends, counters rise, and a slice
stays but that it gets its duration, once. The slices that are referred to from anywhere are in the table. -/

namespace TraceTables.Timeline

/-- The later slice is the earlier one, or that with the duration it did not have. -/
def Slice.Keeps (s s' : Slice) : Prop := s' = s ∨ s.dur? = none ∧ ∃ d, s' = { s with dur? := some d }

theorem Slice.Keeps.trans {a b c : Slice} (h : a.Keeps b) (h' : b.Keeps c) : a.Keeps c := by
  rcases h with rfl | ⟨hnone, d, rfl⟩
  · exact h'
  · rcases h' with rfl | ⟨hsome, -⟩
    · exact Or.inr ⟨hnone, d, rfl⟩
    · cases hsome

theorem Slice.Keeps.dur? {s s' : Slice} (h : s.Keeps s') (hs : s.dur?.isSome = true) : s'.dur? = s.dur? := by
  rcases h with rfl | ⟨hnone, -⟩
  · rfl
  · rw [hnone] at hs
    cases hs

/-- The rows stay at the start of the table, but that at most one of them gets the duration it did not have. -/
def SliceTable.Grown (t t' : SliceTable) : Prop :=
  ∃ rows, rows <+: t'.rows ∧
    (rows = t.rows ∨
      ∃ id s d, t.get? id = some s ∧ s.dur? = none ∧ rows = t.rows.set id { s with dur? := some d })

/-- What an event, or a run of them, keeps of a state. -/
structure Grows (t t' : Timeline) : Prop where
  strings : t.strings.items <+: t'.strings.items
  legacy : t.legacy.items <+: t'.legacy.items
  edges : t.edges <+: t'.edges
  slices : ∀ id s, t.slices.get? id = some s → ∃ s', t'.slices.get? id = some s' ∧ s.Keeps s'
  counters : ∀ c, t.counters.get c ≤ t'.counters.get c

theorem Grows.refl (t : Timeline) : Grows t t where
  strings := List.prefix_refl _
  legacy := List.prefix_refl _
  edges := List.prefix_refl _
  slices _ s hs := ⟨s, hs, Or.inl rfl⟩
  counters _ := Nat.le_refl _

theorem Grows.trans {a b c : Timeline} (h : Grows a b) (h' : Grows b c) : Grows a c where
  strings := h.strings.trans h'.strings
  legacy := h.legacy.trans h'.legacy
  edges := h.edges.trans h'.edges
  slices id s hs := by
    obtain ⟨s', hs', hk⟩ := h.slices id s hs
    obtain ⟨s'', hs'', hk'⟩ := h'.slices id s' hs'
    exact ⟨s'', hs'', hk.trans hk'⟩
  counters c := (h.counters c).trans (h'.counters c)

theorem Grows.text {t t' : Timeline} (h : Grows t t') {id : StringId} {text : String}
    (ht : t.strings.get? id = some text) : t'.strings.get? id = some text :=
  Numbering.get?_of_isPrefix h.strings ht

theorem Grows.fst_legacyFlowId {t t' : Timeline} (h : Grows t t') {l : LegacyFlow} (hl : l ∈ t.legacy.items) :
    (t'.legacyFlowId l).1 = (t.legacyFlowId l).1 := by
  obtain ⟨new, hnew⟩ := h.legacy
  have hid : ∀ u : Timeline, (u.legacyFlowId l).1 = u.legacy.items.idxOf l := fun u => Numbering.fst_number u.legacy l
  rw [hid, hid, ← hnew, List.idxOf_append_of_mem hl]

theorem SliceTable.Grown.keeps {t t' : SliceTable} (h : t.Grown t') {id : SliceId} {s : Slice}
    (hs : t.get? id = some s) : ∃ s', t'.get? id = some s' ∧ s.Keeps s' := by
  obtain ⟨rows, ⟨new, hnew⟩, hrows⟩ := h
  obtain ⟨hlt, hget⟩ := List.getElem?_eq_some_iff.1 hs
  have hat : ∀ s', rows[id]? = some s' → t'.get? id = some s' := by
    intro s' hs'
    rw [SliceTable.get?, ← hnew, List.getElem?_append_left (List.getElem?_eq_some_iff.1 hs').1, hs']
  rcases hrows with rfl | ⟨i, o, d, ho, hnone, rfl⟩
  · exact ⟨s, hat s hs, Or.inl rfl⟩
  · by_cases hi : i = id
    · subst hi
      obtain rfl : o = s := Option.some.inj (ho.symm.trans hs)
      exact ⟨_, hat _ (List.getElem?_set_self hlt), Or.inr ⟨hnone, d, rfl⟩⟩
    · exact ⟨s, hat s (by rw [List.getElem?_set_ne hi]; exact hs), Or.inl rfl⟩

theorem SliceTable.grown_close {t : SliceTable} {id : SliceId} {s : Slice} (hs : t.get? id = some s)
    (hnone : s.dur? = none) (ts : Int) : t.Grown (t.close id ts).2 := by
  unfold close
  rw [hs]
  cases hd : s.duration? ts with
  | none =>
    simp only [hd]
    exact ⟨t.rows, List.prefix_refl _, Or.inl rfl⟩
  | some d =>
    simp only [hd]
    exact ⟨_, List.prefix_refl _, Or.inr ⟨id, s, d, hs, hnone, rfl⟩⟩

section Apply

variable (t : Timeline) (e : Event)

theorem legacy_prefix_apply : t.legacy.items <+: (t.apply e).legacy.items := by
  rcases e.cases_flow with ⟨track, ts, name, rfl⟩ | ⟨track, ts, rfl⟩ | ⟨f, hf⟩
  · rw [(alike_apply t _).legacy]
    exact List.prefix_refl _
  · rw [(flows_apply_end t track ts).2.2.2.2]
  · have hidentify : t.legacy.items <+: (t.identify f.name).2.legacy.items := by
      cases f.name with
      | explicit id => exact List.prefix_refl _
      | legacy sourceId category name => exact Numbering.items_prefix_number _ _
    rw [(alike_apply t e).legacy, prepare_of_flow hf]
    split <;> exact hidentify

theorem le_get_increment (counters : Counters) (j c : Counter) : counters.get c ≤ (counters.increment j).get c := by
  rw [Counters.get_increment]
  split <;> omega

theorem le_get_counters_meetAll (ms : List (FlowId × Meeting)) (c : Counter) :
    t.counters.get c ≤ (t.meetAll ms).counters.get c := by
  induction ms generalizing t with
  | nil => exact Nat.le_refl _
  | cons m ms ih =>
    refine Nat.le_trans ?_ (ih (t.meet m.1 m.2))
    rw [counters_meet]
    cases m.2.miss? (t.endpoint? m.1) with
    | none => exact Nat.le_refl _
    | some j => exact le_get_increment t.counters j c

theorem le_get_counters_apply (c : Counter) : t.counters.get c ≤ (t.apply e).counters.get c := by
  rw [apply_eq_meetAll]
  refine Nat.le_trans ?_ (le_get_counters_meetAll (t.prepare e) (t.meetings e) c)
  rcases e.cases_flow with ⟨track, ts, name, rfl⟩ | ⟨track, ts, rfl⟩ | ⟨f, hf⟩
  · exact Nat.le_refl _
  · have hend : t.prepare (.sliceEnd track ts) = t.apply (.sliceEnd track ts) := rfl
    rw [hend]
    cases hs : t.stack track with
    | nil =>
      rw [apply_end_of_nil t hs]
      exact le_get_increment t.counters _ c
    | cons id around =>
      rw [apply_end_of_cons t hs]
      dsimp only
      split
      · exact le_get_increment t.counters _ c
      · exact Nat.le_refl _
  · rw [prepare_of_flow hf]
    split <;> simp [parkEnd]

variable {t}

/-- The one slice that an end closes has had no duration. -/
theorem Sound.grown_apply (h : Sound t) : t.slices.Grown (t.apply e).slices := by
  rcases e.cases_flow with ⟨track, ts, name, rfl⟩ | ⟨track, ts, rfl⟩ | ⟨f, hf⟩
  · rw [slices_apply_begin]
    exact ⟨t.slices.rows, List.prefix_append _ _, Or.inl rfl⟩
  · cases hst : t.stack track with
    | nil =>
      rw [apply_end_of_nil t hst]
      exact ⟨t.slices.rows, List.prefix_refl _, Or.inl rfl⟩
    | cons id around =>
      have hc := h.chain track
      rw [hst] at hc
      obtain ⟨⟨s, hs, -, hnone, -⟩, -⟩ := hc
      rw [apply_end_of_cons t hst]
      exact SliceTable.grown_close hs hnone ts
  · rw [slices_apply_of_flow hf]
    exact ⟨t.slices.rows, List.prefix_refl _, Or.inl rfl⟩

theorem Sound.grows_apply (h : Sound t) : Grows t (t.apply e) where
  strings := strings_prefix_apply t e
  legacy := legacy_prefix_apply t e
  edges := by
    rw [edges_apply]
    exact List.prefix_append _ _
  slices _ _ hs := (h.grown_apply e).keeps hs
  counters := le_get_counters_apply t e

end Apply

theorem grows_replay {before events : List Event} (h : before <+: events) : Grows (replay before) (replay events) := by
  induction events using List.reverseRecOn with
  | nil =>
    rw [List.prefix_nil.1 h]
    exact Grows.refl _
  | append_singleton events e ih =>
    rcases List.prefix_concat_iff.1 h with rfl | h
    · exact Grows.refl _
    · rw [replay_concat]
      exact (ih h).trans ((sound_replay events).grows_apply e)

/-- All slices that a state refers to are rows of its table. -/
structure Linked (t : Timeline) : Prop where
  endpoints : ∀ flow id, t.endpoint? flow = some id → id < t.slices.size
  openSlices : ∀ track, ∀ id ∈ t.stack track, id < t.slices.size
  parents : ∀ id s, t.slices.get? id = some s → ∀ p, s.parent? = some p → p < t.slices.size
  edges : ∀ edge ∈ t.edges, edge.source < t.slices.size ∧ edge.target < t.slices.size

theorem linked_replay (events : List Event) : Linked (replay events) where
  endpoints flow id h := by
    obtain ⟨n, -, hlast⟩ := lastBound_of_endpoint? h
    rw [size_slices_replay]
    exact hlast.lt
  openSlices track id h := by
    obtain ⟨s, hs, -⟩ := ((sound_replay events).chain track).exists_get? id h
    exact SliceTable.lt_of_get? hs
  parents id s hs p hp := by
    obtain ⟨-, o, ho, -⟩ := ((sound_replay events).rooted id s hs).2 p hp
    exact SliceTable.lt_of_get? ho
  edges edge h := by
    rw [edges_replay] at h
    obtain ⟨⟨flow, edge⟩, hmem, rfl⟩ := List.mem_map.1 h
    obtain ⟨before, e, hp, hmade⟩ := (mem_along _).1 hmem
    obtain ⟨n, -, hsource⟩ := lastBound_of_endpoint? (endpoint?_of_mem_made hmade)
    have hbefore := begun_le_of_isPrefix ((List.prefix_append _ _).trans hp)
    rw [size_slices_replay]
    exact ⟨Nat.lt_of_lt_of_le hsource.lt hbefore,
      Nat.lt_of_lt_of_le (open_target hmade).lt (begun_le_of_isPrefix hp)⟩

/-- The event gives a slice its duration. -/
def GivesDuration (before : List Event) (e : Event) (id : SliceId) : Prop :=
  ∃ s s', (replay before).slices.get? id = some s ∧ s.dur? = none ∧
    (replay (before ++ [e])).slices.get? id = some s' ∧ s'.dur?.isSome = true

/-- A slice that has got its duration does not get one later. -/
theorem GivesDuration.not_later {before before' : List Event} {e e' : Event} {id : SliceId}
    (h : GivesDuration before e id) (hp : before ++ [e] <+: before') : ¬ GivesDuration before' e' id := by
  rintro ⟨o, -, ho, hnone, -⟩
  obtain ⟨-, s', -, -, hs', hsome⟩ := h
  obtain ⟨s'', hs'', hk⟩ := (grows_replay hp).slices id s' hs'
  obtain rfl : o = s'' := Option.some.inj (ho.symm.trans hs'')
  have hd := hk.dur? hsome
  rw [hnone] at hd
  rw [← hd] at hsome
  cases hsome

theorem GivesDuration.unique {events before before' : List Event} {e e' : Event} {id : SliceId}
    (hp : before ++ [e] <+: events) (hp' : before' ++ [e'] <+: events) (h : GivesDuration before e id)
    (h' : GivesDuration before' e' id) : before = before' := by
  have hb : before <+: events := (List.prefix_append _ _).trans hp
  have hb' : before' <+: events := (List.prefix_append _ _).trans hp'
  rcases Nat.lt_trichotomy before.length before'.length with hlt | heq | hlt
  · refine absurd h' (h.not_later (List.prefix_of_prefix_length_le hp hb' ?_))
    rw [List.length_append, List.length_singleton]
    exact hlt
  · exact (List.prefix_of_prefix_length_le hb hb' (Nat.le_of_eq heq)).eq_of_length heq
  · refine absurd h (h'.not_later (List.prefix_of_prefix_length_le hp' hb ?_))
    rw [List.length_append, List.length_singleton]
    exact hlt

/-- In every run, what is in the tables stays. Each event, and each stretch of events, only adds to them; at most one
slice gets its duration at an event, none gets one twice, and strings and flows without an id keep their numbers. What
endpoints, stacks, parents and edges refer to is in the table of slices. -/
theorem tables_only_grow (events : List Event) :
    let t := replay events
    Linked t ∧
      (∀ e, Grows t (t.apply e) ∧ t.slices.Grown (t.apply e).slices) ∧
      (∀ before, before <+: events → Grows (replay before) t ∧
        (∀ id text, (replay before).strings.get? id = some text → t.strings.get? id = some text) ∧
        (∀ l ∈ (replay before).legacy.items, (t.legacyFlowId l).1 = ((replay before).legacyFlowId l).1) ∧
        ∀ n ∈ names before, (t.identify n).1 = ((replay before).identify n).1) ∧
      ∀ id before e before' e', before ++ [e] <+: events → before' ++ [e'] <+: events →
        GivesDuration before e id → GivesDuration before' e' id → before = before' := by
  intro t
  refine ⟨linked_replay events, ?_, ?_, ?_⟩
  · intro e
    exact ⟨(sound_replay events).grows_apply e, (sound_replay events).grown_apply e⟩
  · intro before hp
    have hg : Grows (replay before) t := grows_replay hp
    refine ⟨hg, fun _ _ => hg.text, fun _ => hg.fst_legacyFlowId, ?_⟩
    intro n hn
    rw [(named_replay events).fst_identify, (named_replay before).fst_identify, number_of_isPrefix hp hn]
  · intro id before e before' e' hp hp' h h'
    exact GivesDuration.unique hp hp' h h'

end TraceTables.Timeline
