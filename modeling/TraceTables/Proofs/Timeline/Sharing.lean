import TraceTables.Proofs.Timeline.Balance

/-! Flows with an id and flows without one have their ids from one range. Flows of one kind do not share an id. One with
an id shares it with the one without an id whose place it is, and replay does not tell the two apart. -/

namespace TraceTables.Timeline

/-- Flows of one id: equal ones, and a flow with an id and the one without whose place among its kind that is. -/
inductive Shared (events : List Event) : FlowName → FlowName → Prop where
  | refl (n : FlowName) : Shared events n n
  | explicit {id : FlowId} {n : FlowName} (h : (legacyNames events)[id]? = some n) : Shared events (.explicit id) n
  | legacy {id : FlowId} {n : FlowName} (h : (legacyNames events)[id]? = some n) : Shared events n (.explicit id)

/-- At the event a flow of that name is led to the slice, if it is open. -/
def Leads (before : List Event) (e : Event) (n : FlowName) (slice : SliceId) : Prop :=
  ∃ m, (n, m) ∈ encounters before e ∧ m.target? = some slice

theorem number_eq_iff_getElem? {events : List Event} {n : FlowName} (hn : n ∈ legacyNames events) {id : FlowId} :
    number events n = id ↔ (legacyNames events)[id]? = some n := by
  have hplace := List.getElem?_idxOf hn
  have hnumber : number events n = (legacyNames events).idxOf n := by
    cases n with
    | explicit i => cases (mem_legacyNames.1 hn).2
    | legacy _ _ _ => rfl
  rw [hnumber]
  constructor
  · rintro rfl
    exact hplace
  · intro h
    have hlt : id < (legacyNames events).length := (List.getElem?_eq_some_iff.1 h).1
    exact ((List.getElem?_inj hlt (nodup_eraseDups _)).1 (h.trans hplace.symm)).symm

/-- Exactly such flows share an id. -/
theorem number_eq_iff {events : List Event} {a b : FlowName} (ha : a ∈ names events) (hb : b ∈ names events) :
    number events a = number events b ↔ Shared events a b := by
  constructor
  · intro h
    cases a with
    | explicit i =>
      cases b with
      | explicit j =>
        cases h
        exact .refl _
      | legacy _ _ _ => exact .explicit ((number_eq_iff_getElem? (mem_legacyNames.2 ⟨hb, rfl⟩)).1 h.symm)
    | legacy _ _ _ =>
      have hplace := (number_eq_iff_getElem? (mem_legacyNames.2 ⟨ha, rfl⟩)).1 h
      cases b with
      | explicit j => exact .legacy hplace
      | legacy _ _ _ =>
        have hplace' := (number_eq_iff_getElem? (mem_legacyNames.2 ⟨hb, rfl⟩)).1 rfl
        rw [Option.some_inj.1 (hplace.symm.trans hplace')]
        exact .refl _
  · intro h
    cases h with
    | refl n => rfl
    | explicit h => exact ((number_eq_iff_getElem? (List.mem_of_getElem? h)).2 h).symm
    | legacy h => exact (number_eq_iff_getElem? (List.mem_of_getElem? h)).2 h

theorem target?_of_mem_added {t : Timeline} {ms : List (FlowId × Meeting)} {flow : FlowId} {edge : Edge}
    (h : (flow, edge) ∈ t.added ms) : ∃ m, (flow, m) ∈ ms ∧ m.target? = some edge.target := by
  induction ms generalizing t with
  | nil => cases h
  | cons m ms ih =>
    rw [added, drop_edges_meet, List.mem_append, mem_map_edge?] at h
    rcases h with ⟨rfl, -, ht⟩ | h
    · exact ⟨m.2, List.mem_cons_self, ht⟩
    · obtain ⟨m', hm', ht⟩ := ih h
      exact ⟨m', List.mem_cons_of_mem _ hm', ht⟩

theorem leads_of_mem_made {before : List Event} {e : Event} {flow : FlowId} {edge : Edge}
    (h : (flow, edge) ∈ (replay before).made e) : ∃ n, number before n = flow ∧ Leads before e n edge.target := by
  obtain ⟨m, hm, ht⟩ := target?_of_mem_added h
  rw [meetings_replay, List.mem_map] at hm
  obtain ⟨⟨n, m'⟩, hmem, heq⟩ := hm
  cases heq
  exact ⟨n, rfl, m', hmem, ht⟩

theorem Binds.exists_encounter {before : List Event} {e : Event} {n : FlowName} {slice : SliceId}
    (h : Binds before e n slice) :
    ∃ m, (n, m) ∈ encounters before e ∧ (m = .start (some slice) ∨ m = .step (some slice)) := by
  obtain ⟨f, hf, rfl, ho, hphase⟩ := h
  have htop : (openOn e.track before).head? = some slice := by
    rw [List.head?_eq_getElem?]
    exact (getElem?_openOn _ _ _ _).2 ho
  rw [encounters_of_flow hf, htop]
  rcases hphase with ⟨hphase, -⟩ | ⟨hphase, -⟩ <;> simp [FlowEvent.parks, FlowEvent.meeting, hphase]

theorem Leads.mem_names {before : List Event} {e : Event} {n : FlowName} {slice : SliceId}
    (h : Leads before e n slice) : n ∈ names (before ++ [e]) := by
  obtain ⟨m, hm, -⟩ := h
  exact mem_names_of_mem_encounters hm

theorem Meeting.miss?_eq_duplicate_iff {m : Meeting} {endpoint : Option SliceId} :
    m.miss? endpoint = some .flowDuplicateId ↔ (∃ slice, m = .start (some slice)) ∧ endpoint.isSome = true := by
  cases m with
  | start top | step top | finish top => cases top <;> cases endpoint <;> simp [miss?]
  | opening slice => cases endpoint <;> simp [miss?]

theorem duplicate_of_counted {t : Timeline} {e : Event}
    (h : (t.apply e).counters.get .flowDuplicateId ≠ t.counters.get .flowDuplicateId) :
    ∃ f, e.flow? = some f ∧ f.phase = .start ∧ (t.endpoint? (t.identify f.name).1).isSome = true := by
  rcases e.cases_flow with ⟨track, ts, name, rfl⟩ | ⟨track, ts, rfl⟩ | ⟨f, hf⟩
  · exact absurd ((settles_apply t track ts name).counters .flowDuplicateId) h
  · exact absurd (get_counters_apply_end rfl t track ts) h
  · cases hp : f.parks with
    | true =>
      rw [apply_of_parks hf hp] at h
      simp [parkEnd] at h
    | false =>
      rw [(apply_fields hf hp).2.2.1] at h
      cases hm : (f.meeting (t.top? e.track)).miss? (t.endpoint? (t.identify f.name).1) with
      | none => simp [hm] at h
      | some c =>
        have hc : c = .flowDuplicateId := by
          by_contra hc
          simp [hm, hc] at h
        rw [hc, Meeting.miss?_eq_duplicate_iff] at hm
        obtain ⟨⟨slice, hs⟩, hopen⟩ := hm
        exact ⟨f, hf, (FlowEvent.meeting_eq_start_iff.1 hs).1, hopen⟩

/-- Whatever flows share an id, they share it in the whole run. -/
theorem shared_of_number_eq {before events : List Event} {e : Event} (hp : before ++ [e] <+: events) {a b : FlowName}
    (ha : a ∈ names (before ++ [e])) (hb : b ∈ names (before ++ [e])) (h : number before a = number before b) :
    Shared events a b := by
  rw [← number_eq_iff (mem_names_of_isPrefix hp ha) (mem_names_of_isPrefix hp hb), number_of_isPrefix hp ha,
    number_of_isPrefix hp hb, number_concat ha, number_concat hb, h]

/-- Each edge leads from a slice that a flow holds to one to which a flow of the same id is led. A begin counts as a
duplicate only while a flow of the same id holds a slice and is open there. -/
theorem edges_join_shared (events : List Event) :
    (edgeLog events).map Prod.snd = (replay events).edges ∧
      ∀ before e, before ++ [e] <+: events →
        (∀ flow edge, (flow, edge) ∈ (replay before).made e →
          ∃ a b, Held before a edge.source ∧ Leads before e b edge.target ∧ Shared events a b) ∧
        ((replay (before ++ [e])).counters.flowDuplicateId ≠ (replay before).counters.flowDuplicateId →
          ∃ f a slice, e.flow? = some f ∧ f.phase = .start ∧ Held before a slice ∧ Shared events a f.name ∧
            (replay before).endpoint? (number before f.name) = some slice) := by
  refine ⟨(edges_replay events).symm, fun before e hp => ⟨?_, ?_⟩⟩
  · intro flow edge h
    obtain ⟨a, ha, hheld⟩ := endpoint?_eq_some_iff_held.1 (endpoint?_of_mem_made h)
    obtain ⟨b, hb, hleads⟩ := leads_of_mem_made h
    have hmem : a ∈ names (before ++ [e]) := mem_names_of_isPrefix (List.prefix_append _ _) hheld.mem_names
    exact ⟨a, b, hheld, hleads, shared_of_number_eq hp hmem hleads.mem_names (ha.trans hb.symm)⟩
  · intro h
    rw [replay_concat] at h
    obtain ⟨f, hf, hphase, hopen⟩ := duplicate_of_counted h
    obtain ⟨slice, hs⟩ := Option.isSome_iff_exists.1 hopen
    rw [(named_replay before).fst_identify] at hs
    obtain ⟨a, ha, hheld⟩ := endpoint?_eq_some_iff_held.1 hs
    have hmem : a ∈ names (before ++ [e]) := mem_names_of_isPrefix (List.prefix_append _ _) hheld.mem_names
    have hname : f.name ∈ names (before ++ [e]) := by
      rw [names_concat_of_flow hf]
      exact List.mem_append_right _ List.mem_cons_self
    exact ⟨f, a, slice, hf, hphase, hheld, shared_of_number_eq hp hmem hname ha, hs⟩

/-- Flows with ids zero and one, and two flows without ids, which get the same. -/
def mixed : List Event :=
  [.sliceBegin 1 0 "", .flowBegin 1 0, .flowBegin 1 1, .sliceBegin 2 0 "", .legacyFlow 2 .step 9 "" "" false,
   .legacyFlow 2 .start 8 "" "" false]

/-- No flow binds the first slice and leads to the second, but there is an edge. The last begin is a duplicate, but no
event of its flow has come before. -/
theorem mixed_flows :
    (replay mixed).edges = [⟨0, 1⟩] ∧
      (¬ ∃ n, (∃ before e, before ++ [e] <+: mixed ∧ Binds before e n 0) ∧
        ∃ before e, before ++ [e] <+: mixed ∧ Leads before e n 1) ∧
      ∃ before e f, before ++ [e] = mixed ∧ e.flow? = some f ∧ f.phase = .start ∧ f.name ∉ names before ∧
        (replay mixed).counters.flowDuplicateId = (replay before).counters.flowDuplicateId + 1 := by
  refine ⟨by decide, ?_, mixed.dropLast, .legacyFlow 2 .start 8 "" "" false, ⟨.legacy 8 "" "", .start, false⟩, rfl,
    rfl, rfl, by decide, by decide⟩
  have hno : ∀ x ∈ along encounters mixed, ∀ y ∈ along encounters mixed, x.1 = y.1 →
      x.2 = .start (some 0) ∨ x.2 = .step (some 0) → y.2.target? ≠ some 1 := by decide
  rintro ⟨n, ⟨before, e, hp, hbinds⟩, before', e', hp', m', hm', ht⟩
  obtain ⟨m, hm, hbound⟩ := hbinds.exists_encounter
  have hsource := (mem_along encounters).2 ⟨before, e, hp, hm⟩
  have htarget := (mem_along encounters).2 ⟨before', e', hp', hm'⟩
  exact hno (n, m) hsource (n, m') htarget rfl hbound ht

end TraceTables.Timeline
