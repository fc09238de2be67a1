import TraceTables.Proofs.Numbering
import TraceTables.Proofs.Timeline.Slices

/-! Flows that come without an id have that of their place among the distinct flows of this kind, in the order in which
they first came. Ids of flows that have come do not change. -/

namespace TraceTables.Timeline

/-- The names of all flow events. -/
def names (events : List Event) : List FlowName := (events.filterMap Event.flow?).map FlowEvent.name

def FlowName.isLegacy : FlowName → Bool
  | explicit _ => false
  | legacy .. => true

/-- The distinct flows without an id, in the order in which they first came. -/
def legacyNames (events : List Event) : List FlowName := ((names events).filter FlowName.isLegacy).eraseDups

/-- The id of a flow, by the events alone. One that has not come has the next free number. -/
def number (events : List Event) : FlowName → FlowId
  | .explicit id => id
  | n => (legacyNames events).idxOf n

theorem mem_legacyNames {n : FlowName} {events : List Event} :
    n ∈ legacyNames events ↔ n ∈ names events ∧ n.isLegacy = true := by
  rw [legacyNames, List.mem_eraseDups, List.mem_filter]

theorem names_append (events events' : List Event) : names (events ++ events') = names events ++ names events' := by
  simp [names]

theorem mem_names_of_isPrefix {before events : List Event} (h : before <+: events) {n : FlowName}
    (hn : n ∈ names before) : n ∈ names events := by
  obtain ⟨rest, rfl⟩ := h
  rw [names_append]
  exact List.mem_append_left _ hn

theorem names_concat_of_flow {e : Event} {f : FlowEvent} (h : e.flow? = some f) (events : List Event) :
    names (events ++ [e]) = names events ++ [f.name] := by
  simp [names, h]

theorem names_concat_of_none {e : Event} (h : e.flow? = none) (events : List Event) :
    names (events ++ [e]) = names events := by
  simp [names, h]

theorem legacyNames_concat_of_flow {e : Event} {f : FlowEvent} (h : e.flow? = some f) (events : List Event) :
    legacyNames (events ++ [e]) =
      if f.name.isLegacy = true ∧ f.name ∉ legacyNames events then legacyNames events ++ [f.name]
      else legacyNames events := by
  unfold legacyNames
  rw [names_concat_of_flow h, List.filter_append, List.filter_singleton]
  cases hl : f.name.isLegacy with
  | false => simp
  | true =>
    rw [cond_true, eraseDups_concat]
    by_cases hn : f.name ∈ ((names events).filter FlowName.isLegacy).eraseDups
    · rw [if_pos hn, if_neg fun h => h.2 hn]
    · rw [if_neg hn, if_pos ⟨rfl, hn⟩]

theorem number_of_mem {n : FlowName} {e : Event} {events : List Event} (hn : n ∈ names events) :
    number (events ++ [e]) n = number events n := by
  cases n with
  | explicit id => rfl
  | legacy sourceId category name =>
    have hm : FlowName.legacy sourceId category name ∈ legacyNames events := mem_legacyNames.2 ⟨hn, rfl⟩
    cases he : e.flow? with
    | none => simp only [number, legacyNames, names_concat_of_none he]
    | some f =>
      simp only [number]
      rw [legacyNames_concat_of_flow he]
      split
      · exact List.idxOf_append_of_mem hm
      · rfl

/-- A new flow gets the id that it has had as the next. -/
theorem number_of_flow {e : Event} {f : FlowEvent} (h : e.flow? = some f) (events : List Event) :
    number (events ++ [e]) f.name = number events f.name := by
  by_cases hm : f.name ∈ names events
  · exact number_of_mem hm
  · cases hf : f.name with
    | explicit id => rfl
    | legacy sourceId category name =>
      have hn : f.name ∉ legacyNames events := fun hc => hm (mem_legacyNames.1 hc).1
      simp only [number]
      rw [legacyNames_concat_of_flow h, hf, ← hf, if_pos ⟨by rw [hf]; rfl, hn⟩, List.idxOf_append_of_notMem hn,
        List.idxOf_eq_length hn]
      simp

theorem number_concat {n : FlowName} {e : Event} {events : List Event} (hn : n ∈ names (events ++ [e])) :
    number (events ++ [e]) n = number events n := by
  cases he : e.flow? with
  | none =>
    rw [names_concat_of_none he] at hn
    exact number_of_mem hn
  | some f =>
    rw [names_concat_of_flow he] at hn
    rcases List.mem_append.1 hn with hn | hn
    · exact number_of_mem hn
    · rw [List.mem_singleton.1 hn]
      exact number_of_flow he events

theorem number_of_isPrefix {before events : List Event} (h : before <+: events) {n : FlowName}
    (hn : n ∈ names before) : number events n = number before n := by
  induction events using List.reverseRecOn with
  | nil => rw [List.prefix_nil.1 h]
  | append_singleton events e ih =>
    rcases List.prefix_concat_iff.1 h with rfl | h
    · rfl
    · rw [← ih h, number_of_mem (mem_names_of_isPrefix h hn)]

/-- The flow that the numbers of the strings stand for. -/
def LegacyFlow.name? (strings : Numbering String) (l : LegacyFlow) : Option FlowName :=
  match strings.get? l.category, strings.get? l.name with
  | some category, some name => some (.legacy l.sourceId category name)
  | _, _ => none

/-- The strings are distinct, and the numbered flows are those that have come. -/
structure Named (events : List Event) (t : Timeline) : Prop where
  distinct : t.strings.items.Nodup
  legacy : t.legacy.items.map (LegacyFlow.name? t.strings) = (legacyNames events).map some

theorem LegacyFlow.name?_eq_some_iff {strings : Numbering String} (h : strings.items.Nodup) {l : LegacyFlow}
    {sourceId : Nat} {category name : String} {c n : StringId} (hc : strings.get? c = some category)
    (hn : strings.get? n = some name) :
    l.name? strings = some (.legacy sourceId category name) ↔ l = ⟨sourceId, c, n⟩ := by
  rcases l with ⟨s, c', n'⟩
  have hc' := Numbering.get?_eq_some_iff h hc c'
  have hn' := Numbering.get?_eq_some_iff h hn n'
  rw [LegacyFlow.mk.injEq, ← hc', ← hn']
  unfold LegacyFlow.name?
  cases strings.get? c' <;> cases strings.get? n' <;> simp

theorem LegacyFlow.name?_of_isPrefix {strings strings' : Numbering String} (h : strings.items <+: strings'.items)
    {l : LegacyFlow} {n : FlowName} (hl : l.name? strings = some n) : l.name? strings' = some n := by
  unfold LegacyFlow.name? at hl ⊢
  cases hc : strings.get? l.category with
  | none => simp [hc] at hl
  | some category =>
    cases hn : strings.get? l.name with
    | none => simp [hc, hn] at hl
    | some name =>
      rw [hc, hn] at hl
      rw [Numbering.get?_of_isPrefix h hc, Numbering.get?_of_isPrefix h hn]
      exact hl

theorem Named.intern {events : List Event} {t : Timeline} (h : Named events t) (s : String) :
    Named events (t.intern s).2 := by
  refine ⟨Numbering.nodup_number h.distinct s, ?_⟩
  rw [← h.legacy]
  refine List.map_congr_left fun l hl => ?_
  have hm : l.name? t.strings ∈ (legacyNames events).map some := h.legacy ▸ List.mem_map_of_mem hl
  obtain ⟨n, -, hn⟩ := List.mem_map.1 hm
  rw [← hn]
  exact LegacyFlow.name?_of_isPrefix (Numbering.items_prefix_number t.strings s) hn.symm

/-- The strings of a flow are numbered so that nothing else stands for it. -/
theorem Named.key {events : List Event} {t : Timeline} (h : Named events t) (sourceId : Nat)
    (category name : String) :
    let c := t.intern category
    let n := c.2.intern name
    Named events n.2 ∧
      ∀ l, LegacyFlow.name? n.2.strings l = some (.legacy sourceId category name) ↔ l = ⟨sourceId, c.1, n.1⟩ := by
  intro c n
  have hn : Named events n.2 := (h.intern category).intern name
  refine ⟨hn, fun l => LegacyFlow.name?_eq_some_iff hn.distinct ?_ ?_⟩
  · exact Numbering.get?_of_isPrefix (Numbering.items_prefix_number c.2.strings name)
      (Numbering.get?_number t.strings category)
  · exact Numbering.get?_number c.2.strings name

section Key

variable {events : List Event} {t : Timeline} (h : Named events t) {l : LegacyFlow} {n : FlowName}
  (hl : ∀ l', LegacyFlow.name? t.strings l' = some n ↔ l' = l)
include h hl

theorem Named.fst_legacyFlowId : (t.legacyFlowId l).1 = (legacyNames events).idxOf n := by
  calc
    (t.legacyFlowId l).1 = t.legacy.items.idxOf l := Numbering.fst_number t.legacy l
    _ = (t.legacy.items.map (LegacyFlow.name? t.strings)).idxOf (some n) := (idxOf_map_eq hl t.legacy.items).symm
    _ = ((legacyNames events).map some).idxOf (some n) := by rw [h.legacy]
    _ = (legacyNames events).idxOf n := idxOf_map_eq (fun _ => Option.some_inj) (legacyNames events)

theorem Named.map_name?_legacyFlowId :
    (t.legacyFlowId l).2.legacy.items.map (LegacyFlow.name? t.strings) =
      (if n ∈ legacyNames events then legacyNames events else legacyNames events ++ [n]).map some := by
  have hmem : l ∈ t.legacy.items ↔ n ∈ legacyNames events := by
    have hsome : some n ∈ t.legacy.items.map (LegacyFlow.name? t.strings) ↔ n ∈ legacyNames events := by
      rw [h.legacy]
      simp
    rw [← hsome, List.mem_map]
    constructor
    · intro hm
      exact ⟨l, hm, (hl l).2 rfl⟩
    · rintro ⟨l', hm, hn⟩
      rwa [← (hl l').1 hn]
  simp only [legacyFlowId, Numbering.items_number, hmem]
  split
  · exact h.legacy
  · rw [List.map_append, List.map_append, h.legacy, List.map_singleton, List.map_singleton, (hl l).2 rfl]

end Key

/-- The id of a flow is the one that the events give it. -/
theorem Named.fst_identify {events : List Event} {t : Timeline} (h : Named events t) (n : FlowName) :
    (t.identify n).1 = number events n := by
  cases n with
  | explicit id => rfl
  | legacy sourceId category name =>
    obtain ⟨h', hkey⟩ := h.key sourceId category name
    exact h'.fst_legacyFlowId hkey

theorem Named.identify {events : List Event} {t : Timeline} (h : Named events t) {e : Event} {f : FlowEvent}
    (he : e.flow? = some f) : Named (events ++ [e]) (t.identify f.name).2 := by
  have hlegacy := legacyNames_concat_of_flow he events
  cases hf : f.name with
  | explicit id =>
    refine ⟨h.distinct, ?_⟩
    rw [hlegacy, hf]
    exact h.legacy
  | legacy sourceId category name =>
    obtain ⟨h', hkey⟩ := h.key sourceId category name
    refine ⟨h'.distinct, (h'.map_name?_legacyFlowId hkey).trans ?_⟩
    rw [hlegacy, hf]
    by_cases hm : FlowName.legacy sourceId category name ∈ legacyNames events <;> simp [hm, FlowName.isLegacy]

theorem Named.congr {events events' : List Event} {t t' : Timeline} (h : Named events t)
    (hn : legacyNames events' = legacyNames events) (hs : t'.strings = t.strings) (hl : t'.legacy = t.legacy) :
    Named events' t' := by
  refine ⟨?_, ?_⟩
  · rw [hs]
    exact h.distinct
  · rw [hn, hs, hl]
    exact h.legacy

theorem legacyNames_concat_of_none {e : Event} (h : e.flow? = none) (events : List Event) :
    legacyNames (events ++ [e]) = legacyNames events := by
  rw [legacyNames, names_concat_of_none h, legacyNames]

theorem named_replay (events : List Event) : Named events (replay events) := by
  induction events using List.reverseRecOn with
  | nil => exact ⟨by decide, rfl⟩
  | append_singleton events e ih =>
    rw [replay_concat]
    have ha := alike_apply (replay events) e
    rcases e.cases_flow with ⟨track, ts, name, rfl⟩ | ⟨track, ts, rfl⟩ | ⟨f, hf⟩
    · exact (ih.intern name).congr (legacyNames_concat_of_none rfl events) ha.strings ha.legacy
    · obtain ⟨hs, -, -, -, hl⟩ := flows_apply_end (replay events) track ts
      exact ih.congr (legacyNames_concat_of_none rfl events) hs hl
    · rw [prepare_of_flow hf] at ha
      refine (ih.identify hf).congr rfl ?_ ?_
      · rw [ha.strings]
        split <;> rfl
      · rw [ha.legacy]
        split <;> rfl

end TraceTables.Timeline
