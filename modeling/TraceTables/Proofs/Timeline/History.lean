import Mathlib.Data.List.Induction
import Mathlib.Data.List.Infix
import TraceTables.Timeline.Replay

/-! Moments of a run: an event together with those before it. An event is a begin or an end of a slice, or one of a
flow. -/

namespace TraceTables.Timeline

@[simp] theorem replay_nil : replay [] = empty := rfl

@[simp] theorem replay_concat (events : List Event) (e : Event) :
    replay (events ++ [e]) = (replay events).apply e := by
  simp [replay]

section Moments

variable {α β : Type} (f : List α → α → List β)

def alongFrom (before : List α) : List α → List β
  | [] => []
  | e :: rest => f before e ++ alongFrom (before ++ [e]) rest

/-- What the moments of a run give, one behind the other. -/
def along (events : List α) : List β := alongFrom f [] events

theorem alongFrom_concat (before events : List α) (e : α) :
    alongFrom f before (events ++ [e]) = alongFrom f before events ++ f (before ++ events) e := by
  induction events generalizing before with
  | nil => simp [alongFrom]
  | cons a events ih => simp [alongFrom, ih]

@[simp] theorem along_nil : along f [] = [] := rfl

@[simp] theorem along_concat (events : List α) (e : α) :
    along f (events ++ [e]) = along f events ++ f events e := by
  simp [along, alongFrom_concat]

theorem mem_along {events : List α} {b : β} :
    b ∈ along f events ↔ ∃ before e, before ++ [e] <+: events ∧ b ∈ f before e := by
  induction events using List.reverseRecOn with
  | nil => simp
  | append_singleton events e ih =>
    simp only [along_concat, List.mem_append, ih, List.prefix_concat_iff, List.append_singleton_inj]
    constructor
    · rintro (⟨before, e', hp, hb⟩ | hb)
      · exact ⟨before, e', Or.inr hp, hb⟩
      · exact ⟨events, e, Or.inl ⟨rfl, rfl⟩, hb⟩
    · rintro ⟨before, e', ⟨rfl, rfl⟩ | hp, hb⟩
      · exact Or.inr hb
      · exact Or.inl ⟨before, e', hp, hb⟩

end Moments

/-- A list with one more item, split before an item: the item is the last one, or the split is one of the list. -/
theorem concat_eq_split {α : Type} {items before after : List α} {a b : α} :
    items ++ [a] = before ++ b :: after ↔
      items = before ∧ a = b ∧ after = [] ∨ ∃ rest, after = rest ++ [a] ∧ items = before ++ b :: rest := by
  rcases List.eq_nil_or_concat after with rfl | ⟨rest, c, rfl⟩
  · simp [and_comm]
  · have hc : before ++ b :: rest.concat c = (before ++ b :: rest) ++ [c] := by simp
    rw [hc, List.append_singleton_inj]
    constructor
    · rintro ⟨hi, rfl⟩
      exact Or.inr ⟨rest, by simp, hi⟩
    · rintro (⟨-, -, h⟩ | ⟨rest', h, hi⟩)
      · simp at h
      · rw [List.concat_eq_append, List.append_singleton_inj] at h
        obtain ⟨rfl, rfl⟩ := h
        exact ⟨hi, rfl⟩

/-- What tells flows apart in events. -/
inductive FlowName where
  | explicit (id : FlowId)
  | legacy (sourceId : Nat) (category name : String)
deriving DecidableEq

structure FlowEvent where
  name : FlowName
  phase : Phase
  bindEnclosing : Bool

/-- The end of a flow that does not bind to an open slice. -/
def FlowEvent.parks (e : FlowEvent) : Bool := e.phase = .finish && !e.bindEnclosing

/-- The event as one of a flow. -/
def Event.flow? : Event → Option FlowEvent
  | sliceBegin .. | sliceEnd .. => none
  | flowBegin _ id => some ⟨.explicit id, .start, true⟩
  | flowStep _ id => some ⟨.explicit id, .step, true⟩
  | flowEnd _ id bind => some ⟨.explicit id, .finish, bind⟩
  | legacyFlow _ phase sourceId category name bind => some ⟨.legacy sourceId category name, phase, bind⟩

theorem Event.cases_flow (e : Event) :
    (∃ track ts name, e = .sliceBegin track ts name) ∨ (∃ track ts, e = .sliceEnd track ts) ∨
      ∃ f, e.flow? = some f := by
  cases e with
  | sliceBegin track ts name => exact Or.inl ⟨track, ts, name, rfl⟩
  | sliceEnd track ts => exact Or.inr (Or.inl ⟨track, ts, rfl⟩)
  | flowBegin | flowStep | flowEnd | legacyFlow => exact Or.inr (Or.inr ⟨_, rfl⟩)

end TraceTables.Timeline
