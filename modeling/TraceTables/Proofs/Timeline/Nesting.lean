import TraceTables.Proofs.Timeline.Slices

/-! The slices of a run are a forest on each track. Rows are the begins in order, the open slices those whose begin has
found no end; each is the parent of the slices that begin right inside it, and its duration is that of its end. -/

namespace TraceTables.Timeline

/-- Slices of the track that have no duration yet, each right inside the next one. -/
def Chain (t : SliceTable) (track : Track) : List SliceId → Prop
  | [] => True
  | id :: around =>
    (∃ s, t.get? id = some s ∧ s.track = track ∧ s.dur? = none ∧ s.depth = around.length ∧
      s.parent? = around.head?) ∧
      (∀ outer ∈ around, outer < id) ∧ Chain t track around

theorem Chain.exists_get? {t : SliceTable} {track : Track} {ids : List SliceId} (h : Chain t track ids) :
    ∀ id ∈ ids, ∃ s, t.get? id = some s ∧ s.track = track ∧ s.dur? = none := by
  induction ids with
  | nil => simp
  | cons id around ih =>
    obtain ⟨⟨s, hs, ht, hd, -⟩, -, hc⟩ := h
    intro i hi
    rcases List.mem_cons.1 hi with rfl | hi
    · exact ⟨s, hs, ht, hd⟩
    · exact ih hc i hi

theorem Chain.congr {t t' : SliceTable} {track : Track} {ids : List SliceId}
    (he : ∀ id ∈ ids, t'.get? id = t.get? id) (h : Chain t track ids) : Chain t' track ids := by
  induction ids with
  | nil => trivial
  | cons id around ih =>
    obtain ⟨hs, hlt, hc⟩ := h
    rw [← he id List.mem_cons_self] at hs
    exact ⟨hs, hlt, ih (fun i hi => he i (List.mem_cons_of_mem _ hi)) hc⟩

theorem Chain.push {t : SliceTable} {track : Track} {ids : List SliceId} (h : Chain t track ids) (new : Slice) :
    Chain (t.push new) track ids := by
  refine Chain.congr ?_ h
  intro id hid
  obtain ⟨s, hs, -⟩ := h.exists_get? id hid
  rw [SliceTable.get?_push_of_get? hs, hs]

/-- A slice that begins is right inside the others. -/
theorem Chain.cons {t : SliceTable} {track : Track} {ids : List SliceId} (h : Chain t track ids) (name : StringId)
    (ts : Int) : Chain (t.push ⟨track, name, ts, none, ids.length, ids.head?⟩) track (t.nextId :: ids) := by
  refine ⟨⟨_, by rw [SliceTable.get?_push, if_pos rfl], rfl, rfl, rfl, rfl⟩, ?_, h.push _⟩
  intro id hid
  obtain ⟨s, hs, -⟩ := h.exists_get? id hid
  exact SliceTable.lt_of_get? hs

theorem Chain.close {t : SliceTable} {track : Track} {ids : List SliceId} (h : Chain t track ids) {id : SliceId}
    (hid : id ∉ ids) (ts : Int) : Chain (t.close id ts).2 track ids := by
  refine Chain.congr ?_ h
  intro i hi
  rw [SliceTable.get?_close, if_neg]
  rintro rfl
  exact hid hi

/-- The slice has no parent and depth zero, or its parent is an earlier slice of its track, one less deep. -/
def Rooted (t : SliceTable) (id : SliceId) (s : Slice) : Prop :=
  (s.depth = 0 ↔ s.parent? = none) ∧
    ∀ p, s.parent? = some p → p < id ∧ ∃ o, t.get? p = some o ∧ o.track = s.track ∧ s.depth = o.depth + 1

theorem Rooted.mono {t t' : SliceTable} {id : SliceId} {s : Slice}
    (ht : ∀ i o, t.get? i = some o → ∃ o', t'.get? i = some o' ∧ o'.track = o.track ∧ o'.depth = o.depth)
    (h : Rooted t id s) : Rooted t' id s := by
  refine ⟨h.1, ?_⟩
  intro p hp
  obtain ⟨hlt, o, ho, htrack, hdepth⟩ := h.2 p hp
  obtain ⟨o', ho', htrack', hdepth'⟩ := ht p o ho
  exact ⟨hlt, o', ho', htrack'.trans htrack, by rw [hdepth', hdepth]⟩

theorem Rooted.push {t : SliceTable} {id : SliceId} {s : Slice} (h : Rooted t id s) (new : Slice) :
    Rooted (t.push new) id s := by
  refine h.mono ?_
  intro i o ho
  exact ⟨o, SliceTable.get?_push_of_get? ho new, rfl, rfl⟩

theorem Rooted.close {t : SliceTable} {i : SliceId} {s : Slice} (h : Rooted t i s) (id : SliceId) (ts : Int) :
    Rooted (t.close id ts).2 i s := by
  refine h.mono ?_
  intro i o ho
  obtain ⟨o', ho', rfl | rfl⟩ := SliceTable.exists_get?_close id ts ho
  · exact ⟨o', ho', rfl, rfl⟩
  · exact ⟨_, ho', rfl, rfl⟩

/-- The parent of a slice that begins is the innermost open one, of which the chain tells. -/
theorem Chain.rooted_cons {t : SliceTable} {track : Track} {ids : List SliceId} (h : Chain t track ids)
    (name : StringId) (ts : Int) :
    let s : Slice := ⟨track, name, ts, none, ids.length, ids.head?⟩
    Rooted (t.push s) t.nextId s := by
  intro s
  cases ids with
  | nil => simp [Rooted, s]
  | cons p around =>
    obtain ⟨⟨o, ho, htrack, -, hdepth, -⟩, -⟩ := h
    refine ⟨by simp [s], ?_⟩
    intro q hq
    cases hq
    exact ⟨SliceTable.lt_of_get? ho, o, SliceTable.get?_push_of_get? ho s, htrack, by simp [s, hdepth]⟩

/-- What each event preserves of the slices. -/
structure Sound (t : Timeline) : Prop where
  chain : ∀ track, Chain t.slices track (t.stack track)
  rooted : ∀ id s, t.slices.get? id = some s → Rooted t.slices id s
  named : ∀ id s, t.slices.get? id = some s → s.name < t.strings.items.length

section Sound

variable {t : Timeline} (h : Sound t)
include h

theorem Sound.apply_begin (track : Track) (ts : Int) (name : String) :
    Sound (t.apply (.sliceBegin track ts name)) := by
  refine ⟨?_, ?_, ?_⟩
  · intro other
    rw [slices_apply_begin, stack_apply_begin]
    by_cases ht : track = other
    · subst ht
      rw [if_pos rfl]
      exact (h.chain track).cons _ ts
    · rw [if_neg ht]
      exact (h.chain other).push _
  · intro id s hs
    rw [slices_apply_begin] at hs ⊢
    rw [SliceTable.get?_push] at hs
    split at hs
    · rename_i hid
      subst hid
      cases hs
      exact (h.chain track).rooted_cons _ ts
    · exact (h.rooted id s hs).push _
  · intro id s hs
    rw [slices_apply_begin, SliceTable.get?_push] at hs
    rw [strings_apply_begin]
    split at hs
    · cases hs
      exact fst_intern_lt t name
    · exact Nat.lt_of_lt_of_le (h.named id s hs) (Numbering.items_prefix_number t.strings name).length_le

/-- Of the open slices only the one that ends changes. -/
theorem Sound.chain_close {track : Track} {id : SliceId} {around : List SliceId} (hst : t.stack track = id :: around)
    (ts : Int) (other : Track) :
    Chain (t.slices.close id ts).2 other (if track = other then (t.stack other).tail else t.stack other) := by
  have hc := h.chain track
  rw [hst] at hc
  obtain ⟨⟨s, hs, htrack, -⟩, hlt, haround⟩ := hc
  split
  · rename_i ho
    rw [← ho, hst]
    exact haround.close (fun hi => Nat.lt_irrefl id (hlt id hi)) ts
  · rename_i ho
    refine (h.chain other).close ?_ ts
    intro hi
    obtain ⟨s', hs', htrack', -⟩ := (h.chain other).exists_get? id hi
    rw [hs] at hs'
    cases hs'
    exact ho (htrack.symm.trans htrack')

theorem Sound.apply_end (track : Track) (ts : Int) : Sound (t.apply (.sliceEnd track ts)) := by
  cases hst : t.stack track with
  | nil =>
    rw [apply_end_of_nil t hst]
    exact ⟨h.chain, h.rooted, h.named⟩
  | cons id around =>
    have hslices : (t.apply (.sliceEnd track ts)).slices = (t.slices.close id ts).2 := by
      rw [apply_end_of_cons t hst]
    refine ⟨?_, ?_, ?_⟩
    · intro other
      rw [hslices, stack_apply_end]
      exact h.chain_close hst ts other
    · intro i s hs
      rw [hslices] at hs ⊢
      obtain ⟨o, ho, rfl | rfl⟩ := SliceTable.exists_of_get?_close hs
      · exact (h.rooted i s ho).close id ts
      · exact (h.rooted i o ho).close id ts
    · intro i s hs
      rw [strings_apply_end]
      rw [hslices] at hs
      obtain ⟨o, ho, rfl | rfl⟩ := SliceTable.exists_of_get?_close hs
      · exact h.named i s ho
      · exact h.named i o ho

theorem Sound.apply (e : Event) : Sound (t.apply e) := by
  rcases e.cases_flow with ⟨track, ts, name, rfl⟩ | ⟨track, ts, rfl⟩ | ⟨f, hf⟩
  · exact h.apply_begin track ts name
  · exact h.apply_end track ts
  · refine ⟨?_, ?_, ?_⟩
    · intro track
      rw [slices_apply_of_flow hf, stack_apply_of_flow hf]
      exact h.chain track
    · rw [slices_apply_of_flow hf]
      exact h.rooted
    · intro id s hs
      rw [slices_apply_of_flow hf] at hs
      exact Nat.lt_of_lt_of_le (h.named id s hs) (strings_prefix_apply t e).length_le

end Sound

theorem sound_replay (events : List Event) : Sound (replay events) := by
  induction events using List.reverseRecOn with
  | nil =>
    refine ⟨fun _ => trivial, ?_, ?_⟩
    · intro id s hs
      cases hs
    · intro id s hs
      cases hs
  | append_singleton events e ih =>
    rw [replay_concat]
    exact ih.apply e

/-- What is known of a slice when it begins. -/
structure Beginning where
  track : Track
  ts : Int
  name? : Option String
  depth : Nat
  parent? : Option SliceId

def Slice.beginning (strings : Numbering String) (s : Slice) : Beginning :=
  ⟨s.track, s.ts, strings.get? s.name, s.depth, s.parent?⟩

/-- A slice begins inside the slices that are open on its track. -/
def beginnings (before : List Event) : Event → List Beginning
  | .sliceBegin track ts name =>
    [⟨track, ts, some name, (openOn track before).length, (openOn track before).head?⟩]
  | _ => []

theorem beginnings_of_flow {e : Event} {f : FlowEvent} (h : e.flow? = some f) (before : List Event) :
    beginnings before e = [] := by
  cases e <;> cases h <;> rfl

theorem get?_of_isPrefix {strings strings' : Numbering String} (h : strings.items <+: strings'.items) {id : StringId}
    (hid : id < strings.items.length) : strings'.get? id = strings.get? id := by
  unfold Numbering.get?
  rw [List.getElem?_eq_getElem hid]
  exact List.prefix_iff_getElem?.1 h id hid

theorem map_beginning_close (t : SliceTable) (strings : Numbering String) (id : SliceId) (ts : Int) :
    (t.close id ts).2.rows.map (Slice.beginning strings) = t.rows.map (Slice.beginning strings) := by
  refine List.ext_getElem? fun i => ?_
  have h := t.get?_close id ts i
  unfold SliceTable.get? at h
  rw [List.getElem?_map, List.getElem?_map, h]
  split
  · cases t.rows[i]? <;> rfl
  · rfl

/-- Row by row the slices are those that have begun. -/
theorem beginnings_replay (events : List Event) :
    (replay events).slices.rows.map (Slice.beginning (replay events).strings) = along beginnings events := by
  induction events using List.reverseRecOn with
  | nil => rfl
  | append_singleton events e ih =>
    have hgrow : (replay events).slices.rows.map (Slice.beginning ((replay events).apply e).strings) =
        (replay events).slices.rows.map (Slice.beginning (replay events).strings) := by
      refine List.map_congr_left fun s hs => ?_
      obtain ⟨i, hi⟩ := List.getElem?_of_mem hs
      have hn := (sound_replay events).named i s hi
      simp only [Slice.beginning, get?_of_isPrefix (strings_prefix_apply (replay events) e) hn]
    rw [replay_concat, along_concat, ← ih, ← hgrow]
    rcases e.cases_flow with ⟨track, ts, name, rfl⟩ | ⟨track, ts, rfl⟩ | ⟨f, hf⟩
    · have hname : ((replay events).apply (.sliceBegin track ts name)).strings.get? ((replay events).intern name).1 =
          some name := by
        rw [strings_apply_begin]
        exact Numbering.get?_number (replay events).strings name
      simp only [slices_apply_begin, SliceTable.push, List.map_append, List.map_cons, List.map_nil, beginnings,
        Slice.beginning, hname, stack_replay]
    · cases hst : (replay events).stack track with
      | nil =>
        rw [apply_end_of_nil _ hst]
        simp [beginnings, count]
      | cons id around =>
        rw [apply_end_of_cons _ hst, map_beginning_close]
        simp [beginnings]
    · rw [slices_apply_of_flow hf, beginnings_of_flow hf, List.append_nil]

/-- The slice has been ended at a time, by an end on its track when no slice was open inside it. -/
def Ended (id : SliceId) (ts : Int) (events : List Event) : Prop :=
  ∃ before track, before ++ [.sliceEnd track ts] <+: events ∧ Open track 0 id before

theorem ended_concat (id : SliceId) (ts : Int) (events : List Event) (e : Event) :
    Ended id ts (events ++ [e]) ↔
      Ended id ts events ∨ ∃ track, e = .sliceEnd track ts ∧ Open track 0 id events := by
  unfold Ended
  constructor
  · rintro ⟨before, track, hp, ho⟩
    rcases List.prefix_concat_iff.1 hp with h | h
    · obtain ⟨rfl, rfl⟩ := List.append_singleton_inj.1 h
      exact Or.inr ⟨track, rfl, ho⟩
    · exact Or.inl ⟨before, track, h, ho⟩
  · rintro (⟨before, track, hp, ho⟩ | ⟨track, rfl, ho⟩)
    · exact ⟨before, track, hp.trans (List.prefix_append _ _), ho⟩
    · exact ⟨events, track, List.prefix_refl _, ho⟩

theorem ended_concat_other {e : Event} (he : e.ends = false) (id : SliceId) (ts : Int) (events : List Event) :
    Ended id ts (events ++ [e]) ↔ Ended id ts events := by
  rw [ended_concat]
  refine or_iff_left ?_
  rintro ⟨track, rfl, -⟩
  cases he

theorem ended_concat_end (id : SliceId) (ts' : Int) (events : List Event) (track : Track) (ts : Int) :
    Ended id ts' (events ++ [.sliceEnd track ts]) ↔
      Ended id ts' events ∨ ts' = ts ∧ ((replay events).stack track).head? = some id := by
  rw [ended_concat, show ((replay events).stack track).head? = some id ↔ Open track 0 id events from
    top?_replay events track id]
  refine or_congr_right ?_
  constructor
  · rintro ⟨track', h, ho⟩
    cases h
    exact ⟨rfl, ho⟩
  · rintro ⟨rfl, ho⟩
    exact ⟨track, rfl, ho⟩

theorem Slice.duration?_eq_some_iff (s : Slice) (ts d : Int) :
    s.duration? ts = some d ↔ ts - s.ts = d ∧ 0 ≤ d ∧ d ≤ maxDuration := by
  unfold duration?
  split
  · constructor
    · rintro ⟨⟩
      exact ⟨rfl, ‹_›⟩
    · rintro ⟨rfl, -⟩
      rfl
  · constructor
    · rintro ⟨⟩
    · rintro ⟨rfl, h⟩
      contradiction

theorem Ended.lt {id : SliceId} {ts : Int} {events : List Event} (h : Ended id ts events) : id < begun events := by
  obtain ⟨before, track, hp, ho⟩ := h
  exact Nat.lt_of_lt_of_le ho.lt (begun_le_of_isPrefix ((List.prefix_append _ _).trans hp))

/-- A slice has the duration of an end that it has had, if there is one with a valid duration. -/
def Timed (events : List Event) (t : SliceTable) : Prop :=
  ∀ id s, t.get? id = some s → ∀ d, s.dur? = some d ↔ ∃ ts, Ended id ts events ∧ s.duration? ts = some d

theorem Timed.push {events : List Event} (h : Timed events (replay events).slices) {e : Event} (he : e.ends = false)
    {new : Slice} (hnew : new.dur? = none) : Timed (events ++ [e]) ((replay events).slices.push new) := by
  intro id s hs d
  simp only [ended_concat_other he]
  rw [SliceTable.get?_push] at hs
  split at hs
  · rename_i hid
    cases hs
    rw [hnew]
    constructor
    · rintro ⟨⟩
    · rintro ⟨ts, hended, -⟩
      exact absurd (hended.lt.trans_eq (size_slices_replay events).symm) (hid ▸ Nat.lt_irrefl _)
  · exact h id s hs d

theorem Timed.close {events : List Event} (h : Timed events (replay events).slices) {track : Track} {id : SliceId}
    {around : List SliceId} (hst : (replay events).stack track = id :: around) (ts : Int) :
    Timed (events ++ [.sliceEnd track ts]) ((replay events).slices.close id ts).2 := by
  intro i s hs d
  simp only [ended_concat_end, hst, List.head?_cons, Option.some.injEq]
  rw [SliceTable.get?_close] at hs
  by_cases hi : id = i
  · -- the slice that ends has had no duration, so none of its ends was valid
    subst hi
    have hc := (sound_replay events).chain track
    rw [hst] at hc
    obtain ⟨⟨o, ho, -, hnone, -⟩, -⟩ := hc
    rw [if_pos rfl, ho] at hs
    cases hs
    have hdur : (o.ended ts).dur? = o.duration? ts := by simp [Slice.ended, hnone]
    rw [hdur]
    constructor
    · intro hd
      exact ⟨ts, Or.inr ⟨rfl, rfl⟩, hd⟩
    · rintro ⟨ts', hended | ⟨rfl, -⟩, hd⟩
      · have hold := (h id o ho d).2 ⟨ts', hended, hd⟩
        rw [hnone] at hold
        cases hold
      · exact hd
  · rw [if_neg hi] at hs
    simp only [hi, and_false, or_false]
    exact h i s hs d

theorem timed_replay (events : List Event) : Timed events (replay events).slices := by
  induction events using List.reverseRecOn with
  | nil =>
    intro id s hs
    cases hs
  | append_singleton events e ih =>
    rw [replay_concat]
    rcases e.cases_flow with ⟨track, ts, name, rfl⟩ | ⟨track, ts, rfl⟩ | ⟨f, hf⟩
    · rw [slices_apply_begin]
      exact ih.push rfl rfl
    · cases hst : (replay events).stack track with
      | nil =>
        rw [apply_end_of_nil _ hst]
        simp only [Timed, ended_concat_end, hst, List.head?_nil, reduceCtorEq, and_false, or_false]
        exact ih
      | cons id around =>
        rw [apply_end_of_cons _ hst]
        exact ih.close hst ts
    · rw [slices_apply_of_flow hf]
      simp only [Timed, ended_concat_other (Event.ends_of_flow hf)]
      exact ih

theorem countP_dur?_close {t : SliceTable} {id : SliceId} {s : Slice} (hs : t.get? id = some s)
    (hd : s.dur? = none) (ts : Int) :
    (t.close id ts).2.rows.countP (·.dur?.isSome) =
      t.rows.countP (·.dur?.isSome) + if (s.duration? ts).isSome then 1 else 0 := by
  unfold SliceTable.close
  rw [hs]
  cases hdur : s.duration? ts with
  | none => simp [hdur]
  | some d =>
    obtain ⟨hlt, hget⟩ := List.getElem?_eq_some_iff.1 hs
    simp [hdur, List.countP_set, hlt, hget, hd]

theorem get_misplaced_apply_end (t : Timeline) (track : Track) (ts : Int) :
    (t.apply (.sliceEnd track ts)).counters.get .misplacedEndEvent =
      t.counters.get .misplacedEndEvent + if t.stack track = [] then 1 else 0 := by
  cases hst : t.stack track with
  | nil =>
    rw [apply_end_of_nil t hst]
    simp [count]
  | cons id around =>
    rw [apply_end_of_cons t hst]
    simp only [reduceCtorEq, if_false, Nat.add_zero]
    split <;> simp

theorem rows_apply_of_not_ends (t : Timeline) {e : Event} (he : e.ends = false) :
    (t.apply e).slices.rows.countP (·.dur?.isSome) = t.slices.rows.countP (·.dur?.isSome) := by
  rcases e.cases_flow with ⟨track, ts, name, rfl⟩ | ⟨track, ts, rfl⟩ | ⟨f, hf⟩
  · rw [slices_apply_begin]
    simp [SliceTable.push]
  · cases he
  · rw [slices_apply_of_flow hf]

/-- An end gives a slice its duration, or it is counted. -/
theorem countP_ends_eq (events : List Event) :
    events.countP Event.ends =
      (replay events).slices.rows.countP (·.dur?.isSome) +
        (replay events).counters.get .invalidSliceDuration + (replay events).counters.get .misplacedEndEvent := by
  induction events using List.reverseRecOn with
  | nil => rfl
  | append_singleton events e ih =>
    rw [List.countP_append, List.countP_singleton, ih, replay_concat]
    cases he : e.ends with
    | false =>
      rw [rows_apply_of_not_ends _ he, get_counters_apply rfl _ he, get_counters_apply rfl _ he]
      rfl
    | true =>
      rcases e.cases_flow with ⟨track, ts, name, rfl⟩ | ⟨track, ts, rfl⟩ | ⟨f, hf⟩
      · cases he
      · cases hst : (replay events).stack track with
        | nil =>
          rw [apply_end_of_nil _ hst]
          simp [count]
          omega
        | cons id around =>
          have hc := (sound_replay events).chain track
          rw [hst] at hc
          obtain ⟨⟨s, hs, -, hnone, -⟩, -⟩ := hc
          rw [apply_end_of_cons _ hst, countP_dur?_close hs hnone, SliceTable.fst_close, hs]
          cases hd : s.duration? ts <;> simp [hd] <;> omega
      · rw [Event.ends_of_flow hf] at he
        cases he

/-- The slices of a state as the events tell of them. -/
structure Forest (events : List Event) (t : Timeline) : Prop where
  /-- rows have the track, time and name of the begins, and are placed in the slices that were open then -/
  rows : t.slices.rows.map (Slice.beginning t.strings) = along beginnings events
  /-- the stacks have the slices whose begin has found no end, the latest first -/
  openStack : ∀ track k id, (t.stack track)[k]? = some id ↔ Open track k id events
  latest : ∀ track, (t.stack track).Pairwise (· > ·)
  /-- an end closes the latest open slice of its track -/
  closes : ∀ track ts, (t.apply (.sliceEnd track ts)).stack track = (t.stack track).tail
  /-- an end is misplaced if the begins and ends of its track leave no slice open -/
  misplaced : ∀ track ts, (t.apply (.sliceEnd track ts)).counters.get .misplacedEndEvent =
    t.counters.get .misplacedEndEvent +
      if openOn track (events.filter (Event.ofSlices track)) = [] then 1 else 0
  rooted : ∀ id s, t.slices.get? id = some s → Rooted t.slices id s
  /-- as long as a slice is open, so is its parent, right around it -/
  parents : ∀ track k id, (t.stack track)[k]? = some id →
    ∃ s, t.slices.get? id = some s ∧ s.track = track ∧ s.parent? = (t.stack track)[k + 1]?
  durations : ∀ id s, t.slices.get? id = some s →
    ∀ d, s.dur? = some d ↔ ∃ ts, Ended id ts events ∧ ts - s.ts = d ∧ 0 ≤ d ∧ d ≤ 2 ^ 63 - 1
  ends : events.countP Event.ends =
    t.slices.rows.countP (·.dur?.isSome) + t.counters.get .invalidSliceDuration + t.counters.get .misplacedEndEvent

theorem Chain.pairwise {t : SliceTable} {track : Track} {ids : List SliceId} (h : Chain t track ids) :
    ids.Pairwise (· > ·) := by
  induction ids with
  | nil => exact List.Pairwise.nil
  | cons id around ih =>
    obtain ⟨-, hlt, hc⟩ := h
    exact List.Pairwise.cons hlt (ih hc)

theorem Chain.parent {t : SliceTable} {track : Track} {ids : List SliceId} (h : Chain t track ids) :
    ∀ k id, ids[k]? = some id → ∃ s, t.get? id = some s ∧ s.track = track ∧ s.parent? = ids[k + 1]? := by
  induction ids with
  | nil => simp
  | cons i around ih =>
    obtain ⟨⟨s, hs, ht, -, -, hp⟩, -, hc⟩ := h
    intro k id hk
    cases k with
    | zero =>
      cases hk
      refine ⟨s, hs, ht, ?_⟩
      rw [hp, List.head?_eq_getElem?]
      rfl
    | succ k => exact ih hc k id hk

/-- After all events the slices form a forest on each track. -/
theorem forest_replay (events : List Event) : Forest events (replay events) where
  rows := beginnings_replay events
  openStack track k id := by rw [stack_replay, getElem?_openOn]
  latest track := ((sound_replay events).chain track).pairwise
  closes track ts := by rw [stack_apply_end, if_pos rfl]
  misplaced track ts := by
    have hiff : openOn track (events.filter (Event.ofSlices track)) = [] ↔ (replay events).stack track = [] := by
      rw [stack_replay, ← List.length_eq_zero_iff, length_openOn_filter, List.length_eq_zero_iff]
    simp only [hiff]
    exact get_misplaced_apply_end (replay events) track ts
  rooted := (sound_replay events).rooted
  parents track := ((sound_replay events).chain track).parent
  durations id s hs d := by
    rw [timed_replay events id s hs d]
    simp only [Slice.duration?_eq_some_iff]
    rfl
  ends := countP_ends_eq events

end TraceTables.Timeline
